/-
# CRC-32

The checksum of every record the store writes: the reflected polynomial
0xEDB88320 with pre- and post-inversion (`crc32.cpp`).  The byte-table kernel is
translated from the source and shown to be the bit-serial register of
`Lib.Lfsr` (`tableKernel_eq_lfsrRun`), so a stored checksum that matches drives the
register to zero (`lfsrRun_of_crc32_eq`), and an alteration
of at most 32 consecutive bits of a checked message never passes
(`crc32_detects_burst`).
-/
import ChunkDb.Basic
import ChunkDb.Lib.Lfsr

open LittleEndian ByteBits Lfsr List

namespace ChunkDb

/-- `kPolynomial`. -/
def crcPolynomial : BitVec 32 := 0xEDB88320#32

/-- `kTables[0][i]`: eight shifts of the register holding `i`. -/
def crcTable (i : BitVec 8) : BitVec 32 :=
  (List.range 8).foldl
    (fun value _ => if value.getLsbD 0 then (value >>> 1) ^^^ crcPolynomial else value >>> 1)
    (i.setWidth 32)

/-- One byte of `TableKernel`. -/
def tableStep (state : BitVec 32) (byte : UInt8) : BitVec 32 :=
  (state >>> 8) ^^^ crcTable ((state ^^^ byte.toBitVec.setWidth 32).setWidth 8)

/-- `TableKernel`: the CRC register after the bytes. -/
def tableKernel (state : BitVec 32) (data : Bytes) : BitVec 32 := data.foldl tableStep state

/-- `Crc32`. -/
def crc32 (data : Bytes) : ℕ := (tableKernel 0xFFFFFFFF#32 data ^^^ 0xFFFFFFFF#32).toNat

/-! ## The kernel is the bit-serial register -/

theorem crcTable_eq_lfsrRun (i : BitVec 8) :
    crcTable i = lfsrRun crcPolynomial (i.setWidth 32) (List.replicate 8 false) := by
  have hstep : ∀ v : BitVec 32,
      (if v.getLsbD 0 then (v >>> 1) ^^^ crcPolynomial else v >>> 1)
        = lfsrStep crcPolynomial v false := by
    intro v
    unfold lfsrStep
    cases v.getLsbD 0 <;> simp
  simp only [crcTable, hstep]
  rfl

theorem getLsbD_byte (b : UInt8) (i : ℕ) :
    (b.toBitVec.setWidth 32).getLsbD i = (byteBits b).getD i false := by
  by_cases hi : i < 8
  · have h32 : i < 32 := by omega
    rw [BitVec.getLsbD_setWidth]
    simp [byteBits, getD_eq_getElem?_getD, hi, h32, BitVec.getLsbD]
  · rw [BitVec.getLsbD_setWidth, BitVec.getLsbD_of_ge _ _ (by omega),
      getD_eq_default _ _ (by rw [length_byteBits]; omega)]
    simp

/-- A table lookup shifts in the eight bits of the byte. -/
theorem tableStep_eq_lfsrRun (state : BitVec 32) (byte : UInt8) :
    tableStep state byte = lfsrRun crcPolynomial state (byteBits byte) := by
  set x := state ^^^ byte.toBitVec.setWidth 32 with hx
  set low : BitVec 32 := (x.setWidth 8).setWidth 32 with hlow
  have hzeros : List.zipWith xor (List.replicate 8 false) (List.replicate 8 false)
      = List.replicate 8 false := rfl
  have hlowbit : ∀ i, low.getLsbD i = (decide (i < 8) && x.getLsbD i) := by
    intro i
    rw [hlow, BitVec.getLsbD_setWidth, BitVec.getLsbD_setWidth]
    by_cases hi : i < 8
    · simp [hi, show i < 32 by omega]
    · simp [hi]
  have hclear : ∀ i < 8, (x ^^^ low).getLsbD i = false := by
    intro i hi
    rw [BitVec.getLsbD_xor, hlowbit]
    simp [hi]
  -- the part above the low byte is only shifted, and it is the state's own
  have hhigh : (x ^^^ low) >>> 8 = state >>> 8 := by
    apply BitVec.eq_of_getLsbD_eq
    intro i _
    rw [BitVec.getLsbD_ushiftRight, BitVec.getLsbD_ushiftRight, BitVec.getLsbD_xor, hlowbit, hx,
      BitVec.getLsbD_xor, getLsbD_byte, getD_eq_default _ _ (by rw [length_byteBits]; omega)]
    simp
  have hsplit : x = (x ^^^ low) ^^^ low := by rw [BitVec.xor_assoc, BitVec.xor_self, BitVec.xor_zero]
  rw [lfsrRun_eq_zeros crcPolynomial state _ _ (getLsbD_byte byte), length_byteBits, ← hx, hsplit,
    ← hzeros, lfsrRun_xor _ _ _ _ _ rfl, lfsrRun_zeros_of_low_clear _ _ 8 hclear, hhigh,
    ← crcTable_eq_lfsrRun]
  rfl

theorem tableKernel_eq_lfsrRun (state : BitVec 32) (data : Bytes) :
    tableKernel state data = lfsrRun crcPolynomial state (bitsOf data) := by
  induction data generalizing state with
  | nil => rfl
  | cons b data ih =>
    rw [bitsOf, flatMap_cons, lfsrRun_append, ← bitsOf, ← tableStep_eq_lfsrRun]
    exact ih _

theorem crc32_lt (data : Bytes) : crc32 data < 256 ^ 4 := by
  have h := (tableKernel 0xFFFFFFFF#32 data ^^^ 0xFFFFFFFF#32).isLt
  unfold crc32
  omega

/-- What is read of a record of a magic, a number and their checksum. -/
theorem checkedRecord_fields {magic bytes : Bytes} {value : ℕ} (hmagic : magic.length = 4)
    (hvalue : value < 256 ^ 8) (hbytes : bytes =
      magic ++ leBytes 8 value ++ leBytes 4 (crc32 (magic ++ leBytes 8 value))) :
    bytes.length = 16 ∧ bytes.take 4 = magic ∧ readLe 8 bytes 4 = value ∧
      readLe 4 bytes 12 = crc32 (bytes.take 12) := by
  have hfields : (magic ++ leBytes 8 value).length = 12 := by
    rw [length_append, length_leBytes, hmagic]
  subst hbytes
  refine ⟨?_, ?_, ?_, ?_⟩
  · rw [length_append, hfields, length_leBytes]
  · rw [append_assoc]
    exact take_left' hmagic
  · rw [append_assoc]
    exact readLe_middle 8 _ _ _ 4 hmagic.symm hvalue
  · rw [take_left' hfields, ← append_nil (leBytes 4 _)]
    exact readLe_middle 4 _ _ _ _ hfields.symm (crc32_lt _)

/-! ## Stored checksums -/

/-- The bits that, shifted in after a message, drive the register to zero when
`c` is the message's stored checksum. -/
def checkBits (c : Bytes) : List Bool := (bitsOf c).map (fun b => !b)

theorem getD_checkBits (c : Bytes) (hc : c.length = 4) (i : ℕ) :
    (checkBits c).getD i false = (decide (i < 32) && !getBit c i) := by
  have hlen : (bitsOf c).length = 32 := by rw [length_bitsOf, hc]
  unfold checkBits
  by_cases hi : i < 32
  · have hbit := getD_bitsOf c i
    rw [getD_eq_getElem _ _ (by rw [hlen]; exact hi)] at hbit
    rw [getD_eq_getElem _ _ (by rw [length_map, hlen]; exact hi), getElem_map, hbit]
    simp [hi]
  · rw [getD_eq_default _ _ (by rw [length_map, hlen]; omega)]
    simp [hi]

/-- A stored checksum that matches drives the register to zero. -/
theorem lfsrRun_of_crc32_eq {data c : Bytes} (hc : c.length = 4) (h : crc32 data = leNat c) :
    lfsrRun crcPolynomial 0xFFFFFFFF#32 (bitsOf data ++ checkBits c) = 0#32 := by
  have hones : ∀ i < 32, (0xFFFFFFFF#32).getLsbD i = true := by decide
  rw [lfsrRun_append, ← tableKernel_eq_lfsrRun]
  apply lfsrRun_of_spelled
  intro i
  rw [getD_checkBits c hc]
  by_cases hi : i < 32
  · have hbit : (tableKernel 0xFFFFFFFF#32 data ^^^ 0xFFFFFFFF#32).getLsbD i = getBit c i := by
      rw [← testBit_leNat, ← h]
      rfl
    rw [BitVec.getLsbD_xor, hones i hi] at hbit
    simp [hi, ← hbit]
  · rw [BitVec.getLsbD_of_ge _ _ (by omega)]
    simp [hi]

/-! ## Alterations of few consecutive bits -/

/-- The byte strings agree outside the `k` bits from bit `s` on. -/
def AgreeOutside (s k : ℕ) (a b : Bytes) : Prop :=
  ∀ i, i < s ∨ s + k ≤ i → getBit a i = getBit b i

theorem length_checkBits (c : Bytes) : (checkBits c).length = 8 * c.length := by
  rw [checkBits, length_map, length_bitsOf]

/-- The checked bit string of a message and its stored checksum, bit by bit. -/
theorem getD_message_checkBits (data c : Bytes) (hc : c.length = 4) (i : ℕ)
    (hi : i < 8 * (data ++ c).length) :
    (bitsOf data ++ checkBits c).getD i false
      = (getBit (data ++ c) i ^^ decide (8 * data.length ≤ i)) := by
  by_cases hdata : i < 8 * data.length
  · rw [getD_append _ _ _ _ (by rw [length_bitsOf]; exact hdata), getD_bitsOf,
      getBit_append_left _ _ _ hdata]
    simp [show ¬ 8 * data.length ≤ i by omega]
  · obtain ⟨j, rfl⟩ : ∃ j, i = 8 * data.length + j := ⟨i - 8 * data.length, by omega⟩
    rw [length_append, hc] at hi
    rw [getD_append_right _ _ _ _ (by rw [length_bitsOf]; omega), length_bitsOf,
      Nat.add_sub_cancel_left, getD_checkBits c hc, getBit_append_right]
    simp [show j < 32 by omega]

/-- **Burst detection.**  Two messages with matching stored checksums that agree
outside 32 consecutive bits are the same, checksums included. -/
theorem crc32_detects_burst (data data' c c' : Bytes) (hlen : data.length = data'.length)
    (hc : c.length = 4) (hc' : c'.length = 4) (h : crc32 data = leNat c)
    (h' : crc32 data' = leNat c') (s : ℕ) (hagree : AgreeOutside s 32 (data ++ c) (data' ++ c')) :
    data ++ c = data' ++ c' := by
  set a := bitsOf data ++ checkBits c with ha
  set b := bitsOf data' ++ checkBits c' with hb
  have hlena : a.length = 8 * (data ++ c).length := by
    rw [ha, length_append, length_bitsOf, length_checkBits, length_append]
    ring
  have hlenb : b.length = 8 * (data ++ c).length := by
    rw [hb, length_append, length_bitsOf, length_checkBits, length_append, hc', hlen, hc]
    ring
  have hlenab : (data ++ c).length = (data' ++ c').length := by simp [hlen, hc, hc']
  have hbit : ∀ i < a.length, i < s ∨ s + 32 ≤ i → a.getD i false = b.getD i false := by
    intro i hi hout
    rw [getD_message_checkBits data c hc i (by omega),
      getD_message_checkBits data' c' hc' i (by omega), hagree i hout, hlen]
  have houtside : ∀ i, i < s ∨ s + 32 ≤ i → a[i]? = b[i]? := by
    intro i hout
    by_cases hi : i < a.length
    · have hbi := hbit i hi hout
      rw [getD_eq_getElem _ _ hi, getD_eq_getElem _ _ (by omega)] at hbi
      rw [getElem?_eq_getElem hi, getElem?_eq_getElem (by omega), hbi]
    · rw [getElem?_eq_none (by omega), getElem?_eq_none (by omega)]
  -- both bit strings are a common start, a window of at most 32 bits and a common end
  have hstart : a.take s = b.take s := by
    apply ext_getElem?
    intro i
    rw [getElem?_take, getElem?_take]
    split
    · exact houtside i (Or.inl ‹_›)
    · rfl
  have hend : a.drop (s + 32) = b.drop (s + 32) := by
    apply ext_getElem?
    intro i
    rw [getElem?_drop, getElem?_drop]
    exact houtside _ (Or.inr (by omega))
  have hcut : ∀ l : List Bool, l = l.take s ++ (l.drop s).take 32 ++ l.drop (s + 32) := by
    intro l
    rw [append_assoc, ← drop_drop, take_append_drop, take_append_drop]
  have hwindow : (a.drop s).take 32 = (b.drop s).take 32 := by
    apply @lfsrRun_burst 32 crcPolynomial rfl 0xFFFFFFFF#32 (a.take s) _ _ (a.drop (s + 32))
    · simp [hlena, hlenb]
    · exact length_take_le _ _
    · rw [← hcut a]
      exact lfsrRun_of_crc32_eq hc h
    · rw [hstart, hend, ← hcut b]
      exact lfsrRun_of_crc32_eq hc' h'
  have hab : a = b := by rw [hcut a, hcut b, hstart, hend, hwindow]
  apply ext_getBit _ _ hlenab
  intro i hi
  have hi' := congrArg (fun l : List Bool => l.getD i false) hab
  simp only [ha, hb] at hi'
  rw [getD_message_checkBits data c hc i hi, getD_message_checkBits data' c' hc' i (by omega),
    hlen] at hi'
  simpa using hi'

end ChunkDb
