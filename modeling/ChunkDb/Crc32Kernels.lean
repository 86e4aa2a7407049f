/-
# The CRC-32 kernels

The four kernels of `crc32.cpp`, `crc32_clmul.cpp` and `crc32_armv8.cpp`: one table lookup
per byte, sixteen lookups per sixteen bytes, folding by carry-less multiplication, and the
CRC instructions of ARMv8.  All of them are the bit-serial register (`crc32_kernels`).

A block is absorbed part by part (`absorb_split`).  The register is linear, so a product is
compared with the register on single bits (`KeepsXor.ext`).  A single bit is a power of x modulo
the polynomial (`absorb_twoPow`), and so is a folding constant, for which one evaluation is
enough (`absorb_clmul`).
-/
import ChunkDb.Crc32

open LittleEndian ByteBits Lfsr List
open BitVec (eq_of_getLsbD_eq getLsbD_setWidth getLsbD_twoPow getLsbD_xor getLsbD_zero
  ofNat_eq_ofNat setWidth_eq)

namespace ChunkDb.Crc32

/-! ## The kernels -/

/-- The loop `while (length >= n)` that hands the next `n` bytes to `step`; `fuel` is at least
the number of bytes. -/
def whileBlocks {S : Type} (n : ℕ) (step : S → Bytes → S) : ℕ → S → Bytes → S × Bytes
  | 0, s, data => (s, data)
  | fuel + 1, s, data =>
    if n ≤ data.length then whileBlocks n step fuel (step s (data.take n)) (data.drop n)
    else (s, data)

/-- `kTables[k][i]`, as `BuildTables` makes it. -/
def crcTables : ℕ → BitVec 8 → BitVec 32
  | 0, i => crcTable i
  | k + 1, i => (crcTables k i >>> 8) ^^^ crcTable ((crcTables k i).setWidth 8)

/-- `LoadLe32`. -/
def loadLe32 (data : Bytes) : BitVec 32 := BitVec.ofNat 32 (leNat (data.take 4))

/-- `Slice4`. -/
def slice4 (word : BitVec 32) (last : ℕ) : BitVec 32 :=
  crcTables last (word.extractLsb' 0 8) ^^^ crcTables (last - 1) (word.extractLsb' 8 8)
    ^^^ crcTables (last - 2) (word.extractLsb' 16 8) ^^^ crcTables (last - 3) (word.extractLsb' 24 8)

/-- One round of `SlicingKernel`. -/
def sliceStep (state : BitVec 32) (data : Bytes) : BitVec 32 :=
  slice4 (loadLe32 data ^^^ state) 15 ^^^ slice4 (loadLe32 (data.drop 4)) 11
    ^^^ slice4 (loadLe32 (data.drop 8)) 7 ^^^ slice4 (loadLe32 (data.drop 12)) 3

/-- `SlicingKernel`. -/
def slicingKernel (state : BitVec 32) (data : Bytes) : BitVec 32 :=
  let result := whileBlocks 16 sliceStep data.length state data
  tableKernel result.1 result.2

/-- The first `n` rounds of a product over GF(2): the sum of the shifted factors. -/
def clmulTo (a b : BitVec 64) : ℕ → BitVec 128
  | 0 => 0
  | n + 1 => clmulTo a b n ^^^ (if a.getLsbD n then b.setWidth 128 <<< n else 0)

/-- `_mm_clmulepi64_si128` on two halves: the product of polynomials over GF(2). -/
def clmul (a b : BitVec 64) : BitVec 128 := clmulTo a b 64

/-- The low and the high half of a register. -/
def low64 (x : BitVec 128) : BitVec 64 := x.extractLsb' 0 64
def high64 (x : BitVec 128) : BitVec 64 := x.extractLsb' 64 64

def kK1K2 : BitVec 128 := 0x01c6e41596#64 ++ 0x0154442bd4#64
def kK3K4 : BitVec 128 := 0x00ccaa009e#64 ++ 0x01751997d0#64
def kK5K0 : BitVec 128 := 0x0000000000#64 ++ 0x0163cd6124#64
def kPolyMu : BitVec 128 := 0x01f7011641#64 ++ 0x01db710641#64

/-- `_mm_setr_epi32(~0, 0, ~0, 0)`. -/
def low32 : BitVec 128 := 0x00000000FFFFFFFF00000000FFFFFFFF#128

/-- `Fold`. -/
def fold (value constants next : BitVec 128) : BitVec 128 :=
  clmul (low64 value) (low64 constants) ^^^ clmul (high64 value) (high64 constants) ^^^ next

/-- `Load`. -/
def load (data : Bytes) : BitVec 128 := BitVec.ofNat 128 (leNat (data.take 16))

/-- The four lanes of `FoldBlocks`. -/
structure Lanes where
  x1 : BitVec 128
  x2 : BitVec 128
  x3 : BitVec 128
  x4 : BitVec 128

/-- The lanes over the next 64 bytes. -/
def Lanes.next (lanes : Lanes) (data : Bytes) : Lanes where
  x1 := fold lanes.x1 kK1K2 (load data)
  x2 := fold lanes.x2 kK1K2 (load (data.drop 16))
  x3 := fold lanes.x3 kK1K2 (load (data.drop 32))
  x4 := fold lanes.x4 kK1K2 (load (data.drop 48))

/-- 128 bits to 96. -/
def reduceTo96 (x : BitVec 128) : BitVec 128 := (x >>> 64) ^^^ clmul (low64 x) (high64 kK3K4)

/-- 96 bits to 64. -/
def reduceTo64 (x : BitVec 128) : BitVec 128 :=
  clmul (low64 (x &&& low32)) (low64 kK5K0) ^^^ (x >>> 32)

/-- The Barrett reduction. -/
def barrett (x : BitVec 128) : BitVec 128 :=
  x ^^^ clmul (low64 (clmul (low64 (x &&& low32)) (high64 kPolyMu) &&& low32)) (low64 kPolyMu)

/-- `FoldBlocks`. -/
def foldBlocks (state : BitVec 32) (data : Bytes) : BitVec 32 :=
  let lanes : Lanes := ⟨load data ^^^ state.setWidth 128, load (data.drop 16), load (data.drop 32),
    load (data.drop 48)⟩
  let wide := whileBlocks 64 Lanes.next data.length lanes (data.drop 64)
  let x1 := fold (fold (fold wide.1.x1 kK3K4 wide.1.x2) kK3K4 wide.1.x3) kK3K4 wide.1.x4
  let narrow := whileBlocks 16 (fun x block => fold x kK3K4 (load block)) data.length x1 wide.2
  (barrett (reduceTo64 (reduceTo96 narrow.1))).extractLsb' 32 32

/-- `ClmulKernel`. -/
def clmulKernel (state : BitVec 32) (data : Bytes) : BitVec 32 :=
  if 64 ≤ data.length then
    let folded := data.length - data.length % 16
    slicingKernel (foldBlocks state (data.take folded)) (data.drop folded)
  else slicingKernel state data

/-- `__crc32b`: the register over the bits of a byte. -/
def crc32b (state : BitVec 32) (byte : UInt8) : BitVec 32 :=
  lfsrRun crcPolynomial state (byteBits byte)

/-- `__crc32d`: eight byte steps. -/
def crc32d (state : BitVec 32) (word : Bytes) : BitVec 32 := word.foldl crc32b state

/-- Four words at once. -/
def crc32dWords (state : BitVec 32) (words : Bytes) : BitVec 32 :=
  crc32d (crc32d (crc32d (crc32d state (words.take 8)) ((words.drop 8).take 8))
    ((words.drop 16).take 8)) ((words.drop 24).take 8)

/-- The first loop of `Armv8Kernel`: bytes up to an 8-byte boundary of the address. -/
def alignBytes : ℕ → BitVec 32 → Bytes → BitVec 32 × Bytes
  | _, state, [] => (state, [])
  | address, state, byte :: data =>
    if address % 8 ≠ 0 then alignBytes (address + 1) (crc32b state byte) data
    else (state, byte :: data)

/-- `Armv8Kernel` on data at an address. -/
def armv8Kernel (address : ℕ) (state : BitVec 32) (data : Bytes) : BitVec 32 :=
  let aligned := alignBytes address state data
  let wide := whileBlocks 32 crc32dWords data.length aligned.1 aligned.2
  let words := whileBlocks 8 crc32d data.length wide.1 wide.2
  words.2.foldl crc32b words.1

/-- `Crc32Impl`. -/
inductive Crc32Impl
  | table
  | slicing
  | clmul
  | armv8
  deriving DecidableEq, Repr

/-- `KernelFor`, for data at an address, in a build with or without the two kernels of its
processor. -/
def kernelFor (hasClmul hasArmv8 : Bool) (address : ℕ) : Crc32Impl → BitVec 32 → Bytes → BitVec 32
  | .table => tableKernel
  | .slicing => slicingKernel
  | .clmul => if hasClmul then clmulKernel else slicingKernel
  | .armv8 => if hasArmv8 then armv8Kernel address else slicingKernel

/-- `Crc32ExtendWith`, and `Crc32Extend` with the kernel chosen for the process. -/
def crc32ExtendWith (hasClmul hasArmv8 : Bool) (address : ℕ) (impl : Crc32Impl)
    (previous : BitVec 32) (data : Bytes) : BitVec 32 :=
  kernelFor hasClmul hasArmv8 address impl (previous ^^^ 0xFFFFFFFF#32) data ^^^ 0xFFFFFFFF#32

/-! ## Maps that keep differences -/

/-- A map that keeps differences. -/
def KeepsXor {m n : ℕ} (f : BitVec m → BitVec n) : Prop := ∀ a b, f (a ^^^ b) = f a ^^^ f b

namespace KeepsXor

variable {m n p : ℕ} {f g : BitVec m → BitVec n}

theorem zero (hf : KeepsXor f) : f 0#m = 0#n := by
  have := hf 0#m 0#m
  rwa [BitVec.xor_self, BitVec.xor_self] at this

theorem comp {g : BitVec n → BitVec p} (hg : KeepsXor g) (hf : KeepsXor f) :
    KeepsXor fun x => g (f x) := by
  intro a b
  show g (f (a ^^^ b)) = g (f a) ^^^ g (f b)
  rw [hf, hg]

/-- Maps that keep differences and agree on single bits are equal. -/
theorem ext (hf : KeepsXor f) (hg : KeepsXor g)
    (h : ∀ i < m, f (BitVec.twoPow m i) = g (BitVec.twoPow m i)) (x : BitVec m) : f x = g x := by
  -- by induction on a bound of the bits that are set
  suffices hbelow : ∀ k ≤ m, ∀ x : BitVec m, (∀ i, k ≤ i → x.getLsbD i = false) → f x = g x from
    hbelow m le_rfl x fun i hi => BitVec.getLsbD_of_ge x i hi
  intro k hk
  induction k with
  | zero =>
    intro x hx
    have hx0 : x = 0#m := eq_of_getLsbD_eq fun i _ => by
      rw [hx i (Nat.zero_le i), getLsbD_zero]
    rw [hx0, hf.zero, hg.zero]
  | succ k ih =>
    intro x hx
    cases hbit : x.getLsbD k with
    | false =>
      refine ih (by omega) x fun i hi => ?_
      rcases Nat.eq_or_lt_of_le hi with rfl | hlt
      · exact hbit
      · exact hx i hlt
    | true =>
      have hrest : f (x ^^^ BitVec.twoPow m k) = g (x ^^^ BitVec.twoPow m k) := by
        refine ih (by omega) _ fun i hi => ?_
        rw [getLsbD_xor, getLsbD_twoPow]
        rcases Nat.eq_or_lt_of_le hi with rfl | hlt
        · simp [hbit, show k < m by omega]
        · simp [hx i hlt, hlt.ne]
      have hsplit : x = (x ^^^ BitVec.twoPow m k) ^^^ BitVec.twoPow m k := by
        rw [BitVec.xor_assoc, BitVec.xor_self, BitVec.xor_zero]
      rw [hsplit, hf, hg, hrest, h k (by omega)]

theorem extractLsb' (start length : ℕ) :
    KeepsXor fun x : BitVec m => x.extractLsb' start length := by
  intro a b
  exact BitVec.extractLsb'_xor

theorem setWidth (width : ℕ) : KeepsXor fun x : BitVec m => x.setWidth width := by
  intro a b
  exact BitVec.setWidth_xor

end KeepsXor

/-! ## The register -/

/-- The register after `n` zero bits. -/
def shiftZeros (n : ℕ) (s : BitVec 32) : BitVec 32 :=
  lfsrRun crcPolynomial s (List.replicate n false)

/-- The bits of a block, the lowest one first. -/
def blockBits {w : ℕ} (x : BitVec w) : List Bool := (List.range w).map x.getLsbD

/-- The register after the bits of a block, from zero. -/
def absorb {w : ℕ} (x : BitVec w) : BitVec 32 := lfsrRun crcPolynomial 0#32 (blockBits x)

@[simp] theorem length_blockBits {w : ℕ} (x : BitVec w) : (blockBits x).length = w := by
  rw [blockBits, length_map, length_range]

@[simp] theorem getElem_blockBits {w : ℕ} (x : BitVec w) {i : ℕ} (h : i < (blockBits x).length) :
    (blockBits x)[i] = x.getLsbD i := by
  simp [blockBits]

theorem shiftZeros_add (m n : ℕ) (s : BitVec 32) :
    shiftZeros (m + n) s = shiftZeros n (shiftZeros m s) := by
  rw [shiftZeros, ← replicate_append_replicate, lfsrRun_append]
  rfl

theorem keepsXor_shiftZeros (n : ℕ) : KeepsXor (shiftZeros n) := by
  intro a b
  have hzeros : List.zipWith xor (List.replicate n false) (List.replicate n false)
      = List.replicate n false := by
    rw [zipWith_replicate]
    simp
  rw [shiftZeros, ← hzeros, lfsrRun_xor _ _ _ _ _ rfl]
  rfl

theorem shiftZeros_injective {n : ℕ} {s t : BitVec 32} (h : shiftZeros n s = shiftZeros n t) :
    s = t :=
  lfsrRun_injective rfl s t _ h

variable (s : BitVec 32)

/-- Bits shifted in are added to what zeros give. -/
theorem lfsrRun_eq_shiftZeros (bits : List Bool) :
    lfsrRun crcPolynomial s bits = shiftZeros bits.length s ^^^ lfsrRun crcPolynomial 0#32 bits := by
  have hbits : List.zipWith xor (List.replicate bits.length false) bits = bits := by
    induction bits with
    | nil => rfl
    | cons b bits ih =>
      rw [length_cons, replicate_succ, zipWith_cons_cons, ih, Bool.false_xor]
  have := lfsrRun_xor crcPolynomial s 0#32 (List.replicate bits.length false) bits (by simp)
  rwa [hbits, BitVec.xor_zero] at this

theorem keepsXor_absorb (w : ℕ) : KeepsXor (absorb (w := w)) := by
  intro a b
  have hbits : blockBits (a ^^^ b) = List.zipWith xor (blockBits a) (blockBits b) := by
    rw [blockBits, blockBits, blockBits, zipWith_map, zipWith_self]
    exact map_congr_left fun i _ => getLsbD_xor
  have := lfsrRun_xor crcPolynomial 0#32 0#32 (blockBits a) (blockBits b) (by simp [blockBits])
  rw [BitVec.xor_zero, ← hbits] at this
  exact this

/-- Some bits of a block and then the next ones. -/
theorem absorb_extractLsb' {w : ℕ} (x : BitVec w) (start m n : ℕ) :
    absorb (x.extractLsb' start (m + n))
      = shiftZeros n (absorb (x.extractLsb' start m)) ^^^ absorb (x.extractLsb' (start + m) n) := by
  have hbits : blockBits (x.extractLsb' start (m + n))
      = blockBits (x.extractLsb' start m) ++ blockBits (x.extractLsb' (start + m) n) := by
    simp only [blockBits, range_add, map_append, map_map]
    congr 1
    · exact map_congr_left fun i hi => by simp [mem_range.mp hi, Nat.lt_add_right n]
    · exact map_congr_left fun i hi => by simp [mem_range.mp hi, Nat.add_assoc]
  rw [absorb, hbits, lfsrRun_append, lfsrRun_eq_shiftZeros, length_blockBits]
  rfl

/-- A block is its first bits and then the others. -/
theorem absorb_split {m n : ℕ} (x : BitVec (m + n)) :
    absorb x = shiftZeros n (absorb (x.extractLsb' 0 m)) ^^^ absorb (x.extractLsb' m n) := by
  have hsplit := absorb_extractLsb' x 0 m n
  rwa [BitVec.extractLsb'_eq_self, Nat.zero_add] at hsplit

/-- A block in front of zeros. -/
theorem absorb_setWidth {m : ℕ} (x : BitVec m) (n : ℕ) :
    absorb (x.setWidth (m + n)) = shiftZeros n (absorb x) := by
  have hlow : (x.setWidth (m + n)).extractLsb' 0 m = x :=
    eq_of_getLsbD_eq fun i hi => by simp [hi, Nat.lt_add_right n hi]
  have hhigh : (x.setWidth (m + n)).extractLsb' m n = 0#n :=
    eq_of_getLsbD_eq fun i hi => by simp
  rw [absorb_split, hlow, hhigh, (keepsXor_absorb n).zero, BitVec.xor_zero]

/-- A block no wider than the register. -/
theorem absorb_eq_shiftZeros {n : ℕ} (hn : n ≤ 32) (x : BitVec n) :
    absorb x = shiftZeros n (x.setWidth 32) := by
  have hbits : ∀ i, (x.setWidth 32).getLsbD i = (blockBits x).getD i false := by
    intro i
    by_cases hi : i < n
    · simp [blockBits, hi, show i < 32 by omega]
    · simp [blockBits, hi, BitVec.getLsbD_of_ge x i (not_lt.mp hi)]
  rw [absorb, lfsrRun_eq_zeros _ _ _ _ hbits, BitVec.zero_xor, length_blockBits]
  rfl

/-- Zeros in front of a block are not seen. -/
theorem absorb_of_low_clear {m n : ℕ} {x : BitVec (m + n)} (h : ∀ i < m, x.getLsbD i = false) :
    absorb x = absorb (x.extractLsb' m n) := by
  have hlow : x.extractLsb' 0 m = 0#m := eq_of_getLsbD_eq fun i hi => by simp [h i hi]
  rw [absorb_split, hlow, (keepsXor_absorb m).zero, (keepsXor_shiftZeros n).zero, BitVec.zero_xor]

/-- A single bit of a block: a power of x modulo the polynomial. -/
theorem absorb_twoPow {w i : ℕ} (hi : i < w) :
    absorb (BitVec.twoPow w i) = shiftZeros (w - 1 - i) crcPolynomial := by
  obtain ⟨n, rfl⟩ := Nat.exists_eq_add_of_lt hi
  have hbit : (BitVec.twoPow (i + (n + 1)) i).extractLsb' i (n + 1) = (1#1).setWidth (n + 1) :=
    eq_of_getLsbD_eq fun j hj => by
      rw [BitVec.getLsbD_extractLsb', getLsbD_twoPow, getLsbD_setWidth, BitVec.getLsbD_one]
      simp
  have hone : absorb 1#1 = crcPolynomial := by decide
  have hwidth := absorb_setWidth 1#1 n
  rw [Nat.add_comm 1 n, ← hbit, hone, ← absorb_of_low_clear] at hwidth
  · rw [show i + n + 1 - 1 - i = n by omega]
    exact hwidth
  · intro j hj
    rw [getLsbD_twoPow, decide_eq_false hj.ne', Bool.and_false]

/-- A block behind `i` zero bits, when no bit is lost. -/
theorem shiftZeros_absorb_shiftLeft {w i : ℕ} {c : BitVec w} (hi : i ≤ w)
    (hhigh : ∀ j, w - i ≤ j → c.getLsbD j = false) :
    shiftZeros i (absorb (c <<< i)) = absorb c := by
  obtain ⟨n, rfl⟩ := Nat.exists_eq_add_of_le hi
  have hc : c = (c.extractLsb' 0 n).setWidth (i + n) := eq_of_getLsbD_eq fun j hj => by
    rw [getLsbD_setWidth, BitVec.getLsbD_extractLsb', decide_eq_true hj, Nat.zero_add, Bool.true_and]
    by_cases hjn : j < n
    · rw [decide_eq_true hjn, Bool.true_and]
    · rw [hhigh j (by omega), Bool.and_false]
  have hshift : (c <<< i).extractLsb' i n = c.extractLsb' 0 n :=
    eq_of_getLsbD_eq fun j hj => by simp [hj, -BitVec.getLsbD_eq_getElem]
  have hwidth := absorb_setWidth (c.extractLsb' 0 n) i
  rw [Nat.add_comm n i, ← hc] at hwidth
  rw [absorb_of_low_clear (by simp +contextual), hshift, hwidth]

/-! ## Single bits -/

theorem keepsXor_clmul (b : BitVec 64) : KeepsXor fun a => clmul a b := by
  intro x y
  have hto : ∀ n, clmulTo (x ^^^ y) b n = clmulTo x b n ^^^ clmulTo y b n := by
    intro n
    induction n with
    | zero => simp [clmulTo]
    | succ n ih =>
      have hbit : (if x.getLsbD n ^^ y.getLsbD n then b.setWidth 128 <<< n else 0#128)
          = (if x.getLsbD n then b.setWidth 128 <<< n else 0#128)
            ^^^ (if y.getLsbD n then b.setWidth 128 <<< n else 0#128) := by
        cases x.getLsbD n <;> cases y.getLsbD n <;> simp
      rw [clmulTo, clmulTo, clmulTo, ih, getLsbD_xor, ofNat_eq_ofNat, hbit]
      ac_rfl
  exact hto 64

theorem clmul_twoPow {i : ℕ} (hi : i < 64) (b : BitVec 64) :
    clmul (BitVec.twoPow 64 i) b = b.setWidth 128 <<< i := by
  have hto : ∀ n, clmulTo (BitVec.twoPow 64 i) b n = if i < n then b.setWidth 128 <<< i else 0 := by
    intro n
    induction n with
    | zero => rfl
    | succ n ih =>
      rw [clmulTo, ih, getLsbD_twoPow, decide_eq_true hi, Bool.true_and]
      by_cases heq : i = n
      · subst heq
        simp
      · by_cases hlt : i < n
        · simp [hlt, heq, show i < n + 1 by omega]
        · simp [hlt, heq, show ¬ i < n + 1 by omega]
  rw [clmul, hto, if_pos hi]

theorem setWidth_shiftLeft_setWidth (b : BitVec 64) (i : ℕ) {width : ℕ} (hwidth : width ≤ 128) :
    (b.setWidth 128 <<< i).setWidth width = b.setWidth width <<< i := by
  apply eq_of_getLsbD_eq
  intro j hj
  simp only [getLsbD_setWidth, BitVec.getLsbD_shiftLeft, decide_eq_true hj,
    decide_eq_true (show j < 128 by omega), decide_eq_true (show j - i < 128 by omega),
    decide_eq_true (show j - i < width by omega), Bool.true_and]

/-- The bits of a product with a small constant are those of the constant, moved. -/
theorem shiftZeros_absorb_clmul {m w : ℕ} {k : BitVec 64} {f : BitVec 32 → BitVec 32}
    (hf : KeepsXor f) (hm : m ≤ 64) (hsmall : k.toNat < 2 ^ 33) (hroom : m + 32 ≤ w)
    (hwidth : w ≤ 128) (hk : ∀ j, shiftZeros j (absorb (k.setWidth w))
      = f (shiftZeros j crcPolynomial)) (t : BitVec m) :
    shiftZeros (m - 1) (absorb ((clmul (t.setWidth 64) k).setWidth w)) = f (absorb t) := by
  refine ((keepsXor_shiftZeros _).comp ((keepsXor_absorb w).comp ((KeepsXor.setWidth w).comp
    ((keepsXor_clmul k).comp (KeepsXor.setWidth 64))))).ext (hf.comp (keepsXor_absorb m))
    (fun i hi => ?_) t
  have htwo : (BitVec.twoPow m i).setWidth 64 = BitVec.twoPow 64 i :=
    eq_of_getLsbD_eq fun j hj => by simp [hj, hi, eq_comm]
  rw [htwo, clmul_twoPow (by omega), setWidth_shiftLeft_setWidth k i hwidth, absorb_twoPow hi, ← hk,
    show m - 1 = i + (m - 1 - i) by omega, shiftZeros_add, shiftZeros_absorb_shiftLeft (by omega),
    Nat.add_sub_cancel_left]
  intro j hj
  rw [getLsbD_setWidth, BitVec.getLsbD, Nat.testBit_lt_two_pow (hsmall.trans_le
    (Nat.pow_le_pow_right (by norm_num) (by omega))), Bool.and_false]

/-- The product with a folding constant that is a power of x. -/
theorem absorb_clmul {m w : ℕ} {k : BitVec 64} (hm : m ≤ 64) (hsmall : k.toNat < 2 ^ 33)
    (hroom : m + 32 ≤ w) (hwidth : w ≤ 128) {d : ℕ}
    (hk : absorb (k.setWidth w) = shiftZeros (m - 1 + d) crcPolynomial) (t : BitVec m) :
    absorb ((clmul (t.setWidth 64) k).setWidth w) = shiftZeros d (absorb t) := by
  apply @shiftZeros_injective (m - 1)
  rw [shiftZeros_absorb_clmul (keepsXor_shiftZeros (m - 1 + d)) hm hsmall hroom hwidth _ t,
    ← shiftZeros_add, Nat.add_comm]
  intro j
  rw [hk, ← shiftZeros_add, ← shiftZeros_add, Nat.add_comm]

/-! ## Folding -/

/-- Constants that move a block over `distance` bits. -/
structure Moves (constants : BitVec 128) (distance : ℕ) : Prop where
  low_lt : (low64 constants).toNat < 2 ^ 33
  high_lt : (high64 constants).toNat < 2 ^ 33
  low : absorb ((low64 constants).setWidth 128) = shiftZeros (127 + distance) crcPolynomial
  high : absorb ((high64 constants).setWidth 128) = shiftZeros (63 + distance) crcPolynomial

theorem moves_kK1K2 : Moves kK1K2 512 where
  low_lt := by decide
  high_lt := by decide
  low := by decide +kernel
  high := by decide +kernel

theorem moves_kK3K4 : Moves kK3K4 128 where
  low_lt := by decide
  high_lt := by decide
  low := by decide +kernel
  high := by decide +kernel

/-- A fold moves the block and adds the next one. -/
theorem Moves.absorb_fold {constants : BitVec 128} {distance : ℕ} (h : Moves constants distance)
    (value next : BitVec 128) :
    absorb (fold value constants next) = shiftZeros distance (absorb value) ^^^ absorb next := by
  have hlow := absorb_clmul le_rfl h.low_lt (by omega) le_rfl (d := 64 + distance)
    (by rw [h.low]; congr 1; omega) (low64 value)
  have hhigh := absorb_clmul le_rfl h.high_lt (by omega) le_rfl h.high (high64 value)
  rw [setWidth_eq, setWidth_eq] at hlow hhigh
  rw [fold, keepsXor_absorb, keepsXor_absorb, hlow, hhigh, absorb_split (m := 64) (n := 64) value,
    keepsXor_shiftZeros, shiftZeros_add]
  rfl

/-! ## Reduction -/

variable (x : BitVec 128)

/-- The mask leaves the low 32 bits of the low half. -/
theorem low64_and_low32 :
    low64 (x &&& low32) = (x.extractLsb' 0 32).setWidth 64 := by
  have hmask : ∀ j < 64, low32.getLsbD j = decide (j < 32) := by decide
  apply eq_of_getLsbD_eq
  intro j hj
  simp only [low64, BitVec.getLsbD_extractLsb', BitVec.getLsbD_and, getLsbD_setWidth,
    Nat.zero_add, hmask j hj, decide_eq_true hj, Bool.true_and]
  exact Bool.and_comm _ _

theorem absorb_reduceTo96 :
    absorb ((reduceTo96 x).setWidth 96) = shiftZeros 32 (absorb x) := by
  have hlow := absorb_clmul (k := high64 kK3K4) (w := 96) (d := 96) le_rfl (by decide) le_rfl
    (by omega) (by decide +kernel) (low64 x)
  have hhigh : (x >>> 64).setWidth 96 = (high64 x).setWidth (64 + 32) :=
    eq_of_getLsbD_eq fun i hi => by
      simp only [high64, BitVec.getLsbD_setWidth, BitVec.getLsbD_ushiftRight,
        BitVec.getLsbD_extractLsb', hi]
      by_cases hlt : i < 64
      · simp [hlt]
      · simp [hlt, BitVec.getLsbD_of_ge x (64 + i) (by omega)]
  rw [setWidth_eq] at hlow
  rw [reduceTo96, BitVec.setWidth_xor, keepsXor_absorb, hlow, hhigh, absorb_setWidth,
    absorb_split (m := 64) (n := 64) x, keepsXor_shiftZeros, ← shiftZeros_add, BitVec.xor_comm]
  rfl

theorem absorb_reduceTo64 :
    absorb ((reduceTo64 x).setWidth 64) = absorb (x.setWidth 96) := by
  have hlow := absorb_clmul (k := low64 kK5K0) (w := 64) (d := 64) (by omega) (by decide) le_rfl
    (by omega) (by decide +kernel) (x.extractLsb' 0 32)
  have hhigh : (x >>> 32).setWidth 64 = (x.setWidth 96).extractLsb' 32 64 :=
    eq_of_getLsbD_eq fun i hi => by simp [hi, show 32 + i < 96 by omega]
  rw [reduceTo64, low64_and_low32, BitVec.setWidth_xor, keepsXor_absorb, hlow, hhigh,
    absorb_split (m := 32) (n := 64) (x.setWidth 96), BitVec.extractLsb'_setWidth_of_le (by omega),
    BitVec.extractLsb'_setWidth_of_le (by omega)]

/-- Multiples of the polynomial are not seen by the register. -/
theorem absorb_clmul_poly (t : BitVec 32) :
    absorb ((clmul (t.setWidth 64) (low64 kPolyMu)).setWidth 64) = 0#32 := by
  have hpoly : absorb ((low64 kPolyMu).setWidth 64) = 0#32 := by decide +kernel
  apply @shiftZeros_injective 31
  rw [shiftZeros_absorb_clmul (f := fun _ => 0#32) (fun _ _ => BitVec.xor_self.symm) (by omega)
    (by decide) le_rfl (by omega) _ t, (keepsXor_shiftZeros 31).zero]
  intro j
  rw [hpoly, (keepsXor_shiftZeros j).zero]

theorem absorb_barrett :
    absorb ((barrett x).setWidth 64) = absorb (x.setWidth 64) := by
  rw [barrett, low64_and_low32 (clmul _ _), BitVec.setWidth_xor, keepsXor_absorb, absorb_clmul_poly,
    BitVec.xor_zero]

/-- The low 32 bits are cancelled: the two constants are inverse to each other there. -/
theorem barrett_low : (barrett x).extractLsb' 0 32 = 0#32 := by
  have hkeeps : KeepsXor fun low : BitVec 32 => (clmul (((clmul (low.setWidth 64)
      (high64 kPolyMu)).extractLsb' 0 32).setWidth 64) (low64 kPolyMu)).extractLsb' 0 32 :=
    (KeepsXor.extractLsb' 0 32).comp ((keepsXor_clmul _).comp ((KeepsXor.setWidth 64).comp
      ((KeepsXor.extractLsb' 0 32).comp ((keepsXor_clmul _).comp (KeepsXor.setWidth 64)))))
  have hself : KeepsXor fun low : BitVec 32 => low := fun _ _ => rfl
  have hinverse := hkeeps.ext hself (by decide +kernel) (x.extractLsb' 0 32)
  rw [barrett, low64_and_low32, low64_and_low32, BitVec.extractLsb'_xor]
  rw [hinverse, BitVec.xor_self]

/-- A block of 64 bits, by its halves. -/
theorem absorb_halves (z : BitVec 64) :
    absorb z = shiftZeros 64 (z.extractLsb' 0 32) ^^^ shiftZeros 32 (z.extractLsb' 32 32) := by
  rw [absorb_split (m := 32) (n := 32) z, absorb_eq_shiftZeros le_rfl, absorb_eq_shiftZeros le_rfl,
    setWidth_eq, setWidth_eq, ← shiftZeros_add]

/-- The reduction gives the register after the block. -/
theorem reduce_eq_absorb :
    (barrett (reduceTo64 (reduceTo96 x))).extractLsb' 32 32 = absorb x := by
  apply @shiftZeros_injective 32
  have hhalves := absorb_halves ((barrett (reduceTo64 (reduceTo96 x))).setWidth 64)
  rw [BitVec.extractLsb'_setWidth_of_le (by omega), barrett_low, (keepsXor_shiftZeros 64).zero,
    BitVec.zero_xor, BitVec.extractLsb'_setWidth_of_le (by omega)] at hhalves
  rw [← hhalves, absorb_barrett, absorb_reduceTo64, absorb_reduceTo96]

/-! ## Bytes as blocks -/

/-- The register after some bytes. -/
def crcRun (s : BitVec 32) (data : Bytes) : BitVec 32 := lfsrRun crcPolynomial s (bitsOf data)

/-- The register over the next `n` bytes, as one block. -/
theorem crcRun_take {data : Bytes} {n : ℕ} (h : n ≤ data.length) (s : BitVec 32) :
    crcRun s (data.take n)
      = shiftZeros (8 * n) s ^^^ absorb (BitVec.ofNat (8 * n) (leNat (data.take n))) := by
  have hlen : (bitsOf (data.take n)).length = 8 * n := by
    rw [length_bitsOf, length_take_of_le h]
  have hbits : blockBits (BitVec.ofNat (8 * n) (leNat (data.take n))) = bitsOf (data.take n) := by
    apply ext_getElem
    · rw [length_blockBits, hlen]
    · intro i hi hi'
      rw [getElem_blockBits, BitVec.getLsbD_ofNat, decide_eq_true (hlen ▸ hi'), Bool.true_and,
        testBit_leNat, ← getD_bitsOf, getD_eq_getElem _ _ hi']
  rw [crcRun, lfsrRun_eq_shiftZeros, hlen, absorb, hbits]

/-- The register over sixteen bytes. -/
theorem crcRun_load {data : Bytes} (h : 16 ≤ data.length) (s : BitVec 32) :
    crcRun s (data.take 16) = shiftZeros 128 s ^^^ absorb (load data) := crcRun_take h s

/-- The register over four bytes. -/
theorem crcRun_loadLe32 {data : Bytes} (h : 4 ≤ data.length) (s : BitVec 32) :
    crcRun s (data.take 4) = shiftZeros 32 (s ^^^ loadLe32 data) := by
  have hword := absorb_eq_shiftZeros le_rfl (loadLe32 data)
  rw [setWidth_eq] at hword
  rw [keepsXor_shiftZeros, ← hword]
  exact crcRun_take h s

theorem crcRun_append (data more : Bytes) :
    crcRun s (data ++ more) = crcRun (crcRun s data) more := by
  rw [crcRun, bitsOf_append, lfsrRun_append]
  rfl

/-- A string is its first `n` bytes and the rest. -/
theorem crcRun_take_drop (data : Bytes) (n : ℕ) :
    crcRun s data = crcRun (crcRun s (data.take n)) (data.drop n) := by
  rw [← crcRun_append, take_append_drop]

/-- A string of four blocks. -/
theorem crcRun_four {data : Bytes} (n : ℕ) (h : data.length = 4 * n) :
    crcRun s data = crcRun (crcRun (crcRun (crcRun s (data.take n)) ((data.drop n).take n))
      ((data.drop (2 * n)).take n)) ((data.drop (3 * n)).take n) := by
  have hlast : (data.drop (3 * n)).take n = data.drop (3 * n) :=
    take_of_length_le (by rw [length_drop]; omega)
  rw [crcRun_take_drop s data n, crcRun_take_drop _ (data.drop n) n, drop_drop, ← two_mul,
    crcRun_take_drop _ (data.drop (2 * n)) n, drop_drop, show 2 * n + n = 3 * n by ring, hlast]

section Loop

variable {S : Type} {n : ℕ} {step : S → Bytes → S} {v : S → BitVec 32}

/-- A loop over blocks keeps what the register will be at the end. -/
theorem whileBlocks_spec (hstep : ∀ s block, block.length = n →
      v (step s block) = crcRun (v s) block)
    (fuel : ℕ) (s : S) (data : Bytes) :
    crcRun (v (whileBlocks n step fuel s data).1) (whileBlocks n step fuel s data).2
      = crcRun (v s) data := by
  induction fuel generalizing s data with
  | zero => rfl
  | succ fuel ih =>
    unfold whileBlocks
    split
    · rename_i hlen
      rw [ih, hstep _ _ (length_take_of_le hlen), ← crcRun_take_drop]
    · rfl

theorem whileBlocks_run {step : BitVec 32 → Bytes → BitVec 32}
    (hstep : ∀ s block, block.length = n → step s block = crcRun s block) (fuel : ℕ)
    (s : BitVec 32) (data : Bytes) :
    crcRun (whileBlocks n step fuel s data).1 (whileBlocks n step fuel s data).2 = crcRun s data :=
  whileBlocks_spec (v := id) hstep fuel s data

theorem length_whileBlocks (hn : 0 < n) {fuel : ℕ} (s : S) {data : Bytes}
    (hfuel : data.length ≤ fuel) :
    (whileBlocks n step fuel s data).2.length = data.length % n := by
  induction fuel generalizing s data with
  | zero =>
    rw [whileBlocks, Nat.le_zero.mp hfuel, Nat.zero_mod]
  | succ fuel ih =>
    unfold whileBlocks
    split
    · rename_i hlen
      rw [ih _ (by rw [length_drop]; omega), length_drop, Nat.mod_eq_sub_mod hlen]
    · rename_i hlen
      exact (Nat.mod_eq_of_lt (not_le.mp hlen)).symm

end Loop

/-! ## Slicing -/

theorem crcTables_eq (k : ℕ) (i : BitVec 8) :
    crcTables k i = shiftZeros (8 * (k + 1)) (i.setWidth 32) := by
  induction k with
  | zero => exact crcTable_eq_lfsrRun i
  | succ k ih =>
    have hzero : byteBits 0 = List.replicate 8 false := by decide
    have hbyte := tableStep_eq_lfsrRun (crcTables k i) 0
    rw [hzero, tableStep, show (0 : UInt8).toBitVec.setWidth 32 = 0#32 from rfl,
      BitVec.xor_zero] at hbyte
    rw [crcTables, hbyte, ih, show 8 * (k + 1 + 1) = 8 * (k + 1) + 8 by ring, shiftZeros_add]
    rfl

/-- `Slice4` moves a word over the bytes behind it. -/
theorem slice4_eq (word : BitVec 32) {last : ℕ} (hlast : 3 ≤ last) :
    slice4 word last = shiftZeros (8 * (last + 1)) word := by
  obtain ⟨more, rfl⟩ := Nat.exists_eq_add_of_le' hlast
  have hbyte : ∀ k (byte : BitVec 8), crcTables (more + k) byte
      = shiftZeros (8 * more) (shiftZeros (8 * k) (absorb byte)) := by
    intro k byte
    rw [crcTables_eq, absorb_eq_shiftZeros (by omega), ← shiftZeros_add, ← shiftZeros_add]
    congr 1
    ring
  have hlast3 : absorb (word.extractLsb' 8 24) = shiftZeros 16 (absorb (word.extractLsb' 8 8))
    ^^^ absorb (word.extractLsb' 16 16) := absorb_extractLsb' word 8 8 16
  have hlast2 : absorb (word.extractLsb' 16 16) = shiftZeros 8 (absorb (word.extractLsb' 16 8))
    ^^^ absorb (word.extractLsb' 24 8) := absorb_extractLsb' word 16 8 8
  have hword := absorb_eq_shiftZeros le_rfl word
  rw [setWidth_eq, absorb_split (m := 8) (n := 24) word, hlast3, hlast2] at hword
  show crcTables (more + 3) _ ^^^ crcTables (more + 2) _ ^^^ crcTables (more + 1) _
    ^^^ crcTables (more + 0) _ = _
  rw [hbyte, hbyte, hbyte, hbyte, show 8 * (more + 3 + 1) = 32 + 8 * more by ring, shiftZeros_add,
    ← hword, keepsXor_shiftZeros, keepsXor_shiftZeros, keepsXor_shiftZeros, BitVec.xor_assoc,
    BitVec.xor_assoc]
  rfl

variable (state : BitVec 32)

theorem sliceStep_eq (data : Bytes) (h : data.length = 16) :
    sliceStep state data = crcRun state data := by
  have hdrop : ∀ k, k ≤ 12 → 4 ≤ (data.drop k).length := fun k hk => by
    rw [length_drop]
    omega
  rw [crcRun_four state 4 h, crcRun_loadLe32 (hdrop _ (by omega)),
    crcRun_loadLe32 (hdrop _ (by omega)), crcRun_loadLe32 (hdrop _ (by omega)),
    crcRun_loadLe32 (by omega), sliceStep,
    slice4_eq _ (by omega), slice4_eq _ (by omega), slice4_eq _ (by omega), slice4_eq _ (by omega)]
  have hxor : ∀ n a b, shiftZeros n (a ^^^ b) = shiftZeros n a ^^^ shiftZeros n b :=
    keepsXor_shiftZeros
  simp only [hxor, ← shiftZeros_add, Nat.reduceAdd, Nat.reduceMul]
  ac_rfl

theorem slicingKernel_eq (data : Bytes) :
    slicingKernel state data = crcRun state data := by
  rw [slicingKernel, tableKernel_eq_lfsrRun]
  exact whileBlocks_run sliceStep_eq data.length state data

/-! ## The folding kernel -/

/-- The register after the bytes the lanes stand for. -/
def Lanes.value (lanes : Lanes) : BitVec 32 :=
  shiftZeros 128 (shiftZeros 128 (shiftZeros 128 (absorb lanes.x1) ^^^ absorb lanes.x2)
    ^^^ absorb lanes.x3) ^^^ absorb lanes.x4

/-- The register over 64 bytes. -/
theorem crcRun_lanes {data : Bytes} (h : data.length = 64) (s : BitVec 32) :
    crcRun s data
      = shiftZeros 128 (shiftZeros 128 (shiftZeros 128 (shiftZeros 128 s ^^^ absorb (load data))
          ^^^ absorb (load (data.drop 16))) ^^^ absorb (load (data.drop 32)))
        ^^^ absorb (load (data.drop 48)) := by
  have hdrop : ∀ k, k ≤ 48 → 16 ≤ (data.drop k).length := fun k hk => by
    rw [length_drop]
    omega
  rw [crcRun_four s 16 h, crcRun_load (hdrop _ (by omega)), crcRun_load (hdrop _ (by omega)),
    crcRun_load (hdrop _ (by omega)), crcRun_load (by omega)]

theorem Lanes.value_next (lanes : Lanes) (block : Bytes) (h : block.length = 64) :
    (lanes.next block).value = crcRun lanes.value block := by
  have hxor : ∀ a b, shiftZeros 128 (a ^^^ b) = shiftZeros 128 a ^^^ shiftZeros 128 b :=
    keepsXor_shiftZeros 128
  have hfour : ∀ s, shiftZeros 512 s
      = shiftZeros 128 (shiftZeros 128 (shiftZeros 128 (shiftZeros 128 s))) := by
    intro s
    rw [← shiftZeros_add, ← shiftZeros_add, ← shiftZeros_add]
  rw [crcRun_lanes h, Lanes.value, Lanes.value, Lanes.next]
  simp only [moves_kK1K2.absorb_fold, hfour, hxor]
  ac_rfl

theorem absorb_fold_load (block : Bytes) (h : block.length = 16) :
    absorb (fold x kK3K4 (load block)) = crcRun (absorb x) block := by
  have hrun := crcRun_load h.ge (absorb x)
  rw [take_of_length_le h.le] at hrun
  rw [moves_kK3K4.absorb_fold, hrun]

theorem foldBlocks_eq {data : Bytes} (hmin : 64 ≤ data.length)
    (hblocks : data.length % 16 = 0) :
    foldBlocks state data = crcRun state data := by
  set lanes : Lanes := ⟨load data ^^^ state.setWidth 128, load (data.drop 16), load (data.drop 32),
    load (data.drop 48)⟩ with hlanes
  set wide := whileBlocks 64 Lanes.next data.length lanes (data.drop 64) with hwide
  set x1 := fold (fold (fold wide.1.x1 kK3K4 wide.1.x2) kK3K4 wide.1.x3) kK3K4 wide.1.x4 with hx1
  set narrow := whileBlocks 16 (fun x block => fold x kK3K4 (load block)) data.length x1 wide.2
    with hnarrow
  have hvalue : lanes.value = crcRun state (data.take 64) := by
    have hload : ∀ k, k + 16 ≤ 64 → load ((data.take 64).drop k) = load (data.drop k) := by
      intro k hk
      rw [load, load, take_drop, take_take, take_drop, Nat.min_eq_left (by omega)]
    have hload0 := hload 0 (by omega)
    have hstate : absorb (state.setWidth 128) = shiftZeros 128 state := by
      rw [absorb_setWidth state 96, absorb_eq_shiftZeros le_rfl, setWidth_eq, ← shiftZeros_add]
    rw [drop_zero, drop_zero] at hload0
    rw [crcRun_lanes (length_take_of_le hmin), hload0, hload 16 (by omega),
      hload 32 (by omega), hload 48 (by omega), Lanes.value, hlanes, keepsXor_absorb, hstate,
      BitVec.xor_comm (shiftZeros 128 state)]
  have hlength : wide.2.length = (data.length - 64) % 64 := by
    rw [hwide, length_whileBlocks (by omega) _ (by rw [length_drop]; omega), length_drop]
  have hnil : narrow.2 = [] := by
    apply eq_nil_of_length_eq_zero
    rw [hnarrow, length_whileBlocks (by omega) _ (by omega), hlength]
    omega
  have hloop64 := whileBlocks_spec (v := Lanes.value) (fun s block => s.value_next block)
    data.length lanes (data.drop 64)
  have hloop16 := whileBlocks_spec (v := absorb) absorb_fold_load data.length x1 wide.2
  rw [← hwide, hvalue, ← crcRun_take_drop] at hloop64
  rw [← hnarrow, hnil] at hloop16
  have hmerge : absorb x1 = wide.1.value := by
    rw [hx1, moves_kK3K4.absorb_fold, moves_kK3K4.absorb_fold, moves_kK3K4.absorb_fold, Lanes.value]
  calc foldBlocks state data
      = (barrett (reduceTo64 (reduceTo96 narrow.1))).extractLsb' 32 32 := rfl
    _ = absorb narrow.1 := reduce_eq_absorb _
    _ = crcRun wide.1.value wide.2 := by rw [← hmerge, ← hloop16]; rfl
    _ = crcRun state data := hloop64

theorem clmulKernel_eq (data : Bytes) :
    clmulKernel state data = crcRun state data := by
  unfold clmulKernel
  split
  · have hfolded : (data.take (data.length - data.length % 16)).length
        = data.length - data.length % 16 := length_take_of_le (by omega)
    dsimp only
    rw [slicingKernel_eq, foldBlocks_eq state (by omega) (by omega), ← crcRun_take_drop]
  · exact slicingKernel_eq state data

/-! ## The ARM kernel -/

theorem foldl_crc32b (data : Bytes) :
    data.foldl crc32b state = crcRun state data := by
  induction data generalizing state with
  | nil => rfl
  | cons byte data ih =>
    rw [foldl_cons, ih, crc32b, crcRun, ← lfsrRun_append]
    rfl

theorem alignBytes_spec (address : ℕ) (state : BitVec 32) (data : Bytes) :
    crcRun (alignBytes address state data).1 (alignBytes address state data).2
      = crcRun state data := by
  induction data generalizing address state with
  | nil => rfl
  | cons byte data ih =>
    unfold alignBytes
    split
    · rw [ih, crc32b, crcRun, ← lfsrRun_append]
      rfl
    · rfl

theorem crc32d_eq (word : Bytes) : crc32d s word = crcRun s word :=
  foldl_crc32b s word

theorem crc32dWords_eq (words : Bytes) (h : words.length = 32) :
    crc32dWords s words = crcRun s words := by
  rw [crcRun_four s 8 h]
  simp only [crc32dWords, crc32d_eq]

theorem armv8Kernel_eq (address : ℕ) (state : BitVec 32) (data : Bytes) :
    armv8Kernel address state data = crcRun state data := by
  unfold armv8Kernel
  dsimp only
  rw [foldl_crc32b, whileBlocks_run fun s word _ => crc32d_eq s word,
    whileBlocks_run crc32dWords_eq, alignBytes_spec]

/-! ## All kernels -/

theorem kernelFor_eq (hasClmul hasArmv8 : Bool) (address : ℕ) (impl : Crc32Impl) (state : BitVec 32)
    (data : Bytes) :
    kernelFor hasClmul hasArmv8 address impl state data = crcRun state data := by
  cases impl with
  | table => exact tableKernel_eq_lfsrRun state data
  | slicing => exact slicingKernel_eq state data
  | clmul =>
    cases hasClmul
    · exact slicingKernel_eq state data
    · exact clmulKernel_eq state data
  | armv8 =>
    cases hasArmv8
    · exact slicingKernel_eq state data
    · exact armv8Kernel_eq address state data

/-- Every kernel is the bit-serial register, for every register, bytes and address, and two
calls of `Crc32Extend` are one over both strings. -/
theorem crc32_kernels (state : BitVec 32) (data : Bytes) :
    tableKernel state data = lfsrRun crcPolynomial state (bitsOf data)
      ∧ slicingKernel state data = lfsrRun crcPolynomial state (bitsOf data)
      ∧ clmulKernel state data = lfsrRun crcPolynomial state (bitsOf data)
      ∧ (∀ address, armv8Kernel address state data = lfsrRun crcPolynomial state (bitsOf data))
      ∧ ∀ (hasClmul hasArmv8 : Bool) (impl : Crc32Impl) (first second whole : ℕ) (more : Bytes),
        crc32ExtendWith hasClmul hasArmv8 second impl
            (crc32ExtendWith hasClmul hasArmv8 first impl state data) more
          = crc32ExtendWith hasClmul hasArmv8 whole impl state (data ++ more) := by
  refine ⟨tableKernel_eq_lfsrRun state data, slicingKernel_eq state data, clmulKernel_eq state data,
    fun address => armv8Kernel_eq address state data, ?_⟩
  intro hasClmul hasArmv8 impl first second whole more
  unfold crc32ExtendWith
  rw [kernelFor_eq, kernelFor_eq, kernelFor_eq, BitVec.xor_assoc _ (0xFFFFFFFF#32), BitVec.xor_self,
    BitVec.xor_zero, ← crcRun_append]

end ChunkDb.Crc32
