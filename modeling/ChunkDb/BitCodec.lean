/-
# Packed cells

The loops of `bit_codec.cpp`: single bits up to a byte boundary, whole bytes, and the
single bits that are left.  Both `ExtractBits` and `WriteBits` do what a loop over single
bits does (`extractBits_eq`, `writeBitsLoops_eq`), as `ReadValueBits` and `WriteValueBits`
of `chunk_layout.cpp` do with their copies of whole bytes.

A cell of a column is a lens: what is written is read back, every other bit stays, and
writing what was read changes nothing (`packed_cell_lens`).
-/
import ChunkDb.Mutation
import ChunkDb.PayloadBits

open ByteBits List

namespace ChunkDb

/-! ## `BitCodec::ExtractBits` -/

/-- The digit of one bit. -/
def bitDigit (data : Bytes) (bit : ℕ) : Char := if getBit data bit then '1' else '0'

/-- A row of `ByteToBitCharsLsb`. -/
def byteToBitCharsLsb (value : UInt8) : List Char :=
  (List.range 8).map fun bit => if value.toNat.testBit bit then '1' else '0'

/-- The byte at a bit, put together from two bytes when the bit is inside one. -/
def mergedByte (data : Bytes) (absoluteBit : ℕ) : UInt8 :=
  if absoluteBit % 8 = 0 then data.getD (absoluteBit / 8) 0
  else (data.getD (absoluteBit / 8) 0 >>> UInt8.ofNat (absoluteBit % 8))
    ||| (data.getD (absoluteBit / 8 + 1) 0 <<< UInt8.ofNat (8 - absoluteBit % 8))

/-- The last loop: bit by bit. -/
def extractTail (data : Bytes) : ℕ → ℕ → List Char
  | 0, _ => []
  | remaining + 1, absoluteBit =>
    bitDigit data absoluteBit :: extractTail data remaining (absoluteBit + 1)

/-- The loop over whole bytes, and the last loop after it. -/
def extractBytes (data : Bytes) : ℕ → ℕ → List Char
  | remaining + 8, absoluteBit =>
    byteToBitCharsLsb (mergedByte data absoluteBit) ++ extractBytes data remaining (absoluteBit + 8)
  | remaining, absoluteBit => extractTail data remaining absoluteBit

/-- The loop up to a byte boundary, and the others after it. -/
def extractAligned (data : Bytes) : ℕ → ℕ → List Char
  | 0, absoluteBit => extractBytes data 0 absoluteBit
  | remaining + 1, absoluteBit =>
    if absoluteBit % 8 ≠ 0 then
      bitDigit data absoluteBit :: extractAligned data remaining (absoluteBit + 1)
    else extractBytes data (remaining + 1) absoluteBit

/-- `BitCodec::ExtractBits`. -/
def extractBits (data : Bytes) (bitOffset bitCount : ℕ) : Fallible (List Char) :=
  if bitCount = 0 then .ok []
  else if bitOffset + bitCount > data.length * 8 then .error ⟨.outOfRange, "bit range out of bounds"⟩
  else .ok (extractAligned data bitCount bitOffset)

theorem testBit_mergedByte (data : Bytes) (absoluteBit : ℕ) {k : ℕ} (hk : k < 8) :
    (mergedByte data absoluteBit).toNat.testBit k = getBit data (absoluteBit + k) := by
  unfold mergedByte getBit
  split
  · rename_i haligned
    rw [show (absoluteBit + k) / 8 = absoluteBit / 8 by omega,
      show (absoluteBit + k) % 8 = k by omega]
  · -- the low bits come from the first byte, the high ones from the second
    have hshift : (UInt8.ofNat (absoluteBit % 8)).toNat % 8 = absoluteBit % 8 := by
      rw [UInt8.toNat_ofNat_of_lt' (by have : UInt8.size = 256 := rfl; omega)]
      omega
    have hshift' : (UInt8.ofNat (8 - absoluteBit % 8)).toNat % 8 = 8 - absoluteBit % 8 := by
      rw [UInt8.toNat_ofNat_of_lt' (by have : UInt8.size = 256 := rfl; omega)]
      omega
    rw [UInt8.toNat_or, UInt8.toNat_shiftRight, UInt8.toNat_shiftLeft, hshift, hshift',
      Nat.testBit_or, Nat.testBit_shiftRight, Nat.testBit_mod_two_pow, Nat.testBit_shiftLeft]
    by_cases hlow : absoluteBit % 8 + k < 8
    · rw [show (absoluteBit + k) / 8 = absoluteBit / 8 by omega,
        show (absoluteBit + k) % 8 = absoluteBit % 8 + k by omega,
        decide_eq_false (show ¬ 8 - absoluteBit % 8 ≤ k by omega), Bool.false_and, Bool.and_false,
        Bool.or_false]
    · have hhigh : (data.getD (absoluteBit / 8) 0).toNat.testBit (absoluteBit % 8 + k) = false :=
        Nat.testBit_lt_two_pow (((data.getD (absoluteBit / 8) 0).toNat_lt).trans_le
          (Nat.pow_le_pow_right (by norm_num) (by omega)))
      rw [show (absoluteBit + k) / 8 = absoluteBit / 8 + 1 by omega,
        show (absoluteBit + k) % 8 = k - (8 - absoluteBit % 8) by omega, hhigh, Bool.false_or,
        decide_eq_true hk, decide_eq_true (show 8 - absoluteBit % 8 ≤ k by omega), Bool.true_and,
        Bool.true_and]

/-- Bit by bit, as digits in order. -/
theorem extractTail_eq (data : Bytes) (remaining absoluteBit : ℕ) :
    extractTail data remaining absoluteBit
      = (List.range remaining).map fun i => bitDigit data (absoluteBit + i) := by
  induction remaining generalizing absoluteBit with
  | zero => rfl
  | succ remaining ih =>
    rw [extractTail, ih, range_succ_eq_map, map_cons, map_map]
    congr 1
    apply map_congr_left
    intro i _
    show bitDigit data (absoluteBit + 1 + i) = bitDigit data (absoluteBit + (i + 1))
    rw [Nat.add_assoc, Nat.add_comm 1 i]

theorem extractTail_add (data : Bytes) (first second absoluteBit : ℕ) :
    extractTail data (second + first) absoluteBit
      = extractTail data first absoluteBit ++ extractTail data second (absoluteBit + first) := by
  induction first generalizing absoluteBit with
  | zero => rfl
  | succ first ih =>
    rw [← Nat.add_assoc, extractTail, extractTail, ih, cons_append, Nat.add_assoc absoluteBit,
      Nat.add_comm 1 first]

/-- Whole bytes give the digits of their bits. -/
theorem extractBytes_eq (data : Bytes) (remaining absoluteBit : ℕ) :
    extractBytes data remaining absoluteBit = extractTail data remaining absoluteBit := by
  fun_induction extractBytes data remaining absoluteBit with
  | case1 remaining absoluteBit ih =>
    rw [extractTail_add data 8 remaining absoluteBit, ih]
    congr 1
    rw [extractTail_eq, byteToBitCharsLsb]
    apply map_congr_left
    intro k hk
    rw [testBit_mergedByte _ _ (mem_range.mp hk), bitDigit]
  | case2 remaining absoluteBit _ => rfl

theorem extractAligned_eq (data : Bytes) (remaining absoluteBit : ℕ) :
    extractAligned data remaining absoluteBit = extractTail data remaining absoluteBit := by
  induction remaining generalizing absoluteBit with
  | zero => rfl
  | succ remaining ih =>
    unfold extractAligned
    split
    · rw [ih, extractTail]
    · exact extractBytes_eq data (remaining + 1) absoluteBit

variable {data : Bytes} {bitOffset absoluteBit : ℕ} {digits : List Char}

/-- `ExtractBits` reads bit by bit. -/
theorem extractBits_eq {bitCount : ℕ} (h : bitOffset + bitCount ≤ 8 * data.length) :
    extractBits data bitOffset bitCount
      = .ok ((List.range bitCount).map fun i => bitDigit data (bitOffset + i)) := by
  unfold extractBits
  split
  · rename_i hzero
    rw [hzero, range_zero, map_nil]
  · rw [if_neg (by omega), extractAligned_eq, extractTail_eq]

/-! ## `BitCodec::WriteBits` -/

/-- `ParseBitByteLsb`. -/
def parseBitByteLsb (bits : List Char) : UInt8 :=
  (List.range 8).foldl
    (fun value bit => if bits.getD bit '0' = '1' then value ||| bitMask bit else value) 0

/-- The last loop of `WriteBits`: bit by bit. -/
def writeTail : Bytes → ℕ → List Char → Bytes
  | data, _, [] => data
  | data, absoluteBit, digit :: digits =>
    writeTail (putBit data absoluteBit (digit == '1')) (absoluteBit + 1) digits

/-- The loop over whole bytes, and the last loop after it; `fuel` is at least the number of
digits. -/
def writeBytes : ℕ → Bytes → ℕ → List Char → Bytes
  | 0, data, absoluteBit, digits => writeTail data absoluteBit digits
  | fuel + 1, data, absoluteBit, digits =>
    if 8 ≤ digits.length then
      writeBytes fuel (data.set (absoluteBit / 8) (parseBitByteLsb digits)) (absoluteBit + 8)
        (digits.drop 8)
    else writeTail data absoluteBit digits

/-- The loop up to a byte boundary, and the others after it. -/
def writeAligned : Bytes → ℕ → List Char → Bytes
  | data, absoluteBit, [] => writeBytes 0 data absoluteBit []
  | data, absoluteBit, digit :: digits =>
    if absoluteBit % 8 ≠ 0 then
      writeAligned (putBit data absoluteBit (digit == '1')) (absoluteBit + 1) digits
    else writeBytes (digits.length + 1) data absoluteBit (digit :: digits)

/-- `BitCodec::WriteBits` with its loops. -/
def writeBitsLoops (data : Bytes) (bitOffset : ℕ) (digits : List Char) : Fallible Bytes :=
  if isBitString digits = false then invalidArgument "bits must contain only 0 or 1"
  else if bitOffset + digits.length > data.length * 8 then
    .error ⟨.outOfRange, "bit range out of bounds"⟩
  else if digits.isEmpty then .ok data
  else .ok (writeAligned data bitOffset digits)

theorem testBit_parseBitByteLsb (bits : List Char) {k : ℕ} (hk : k < 8) :
    (parseBitByteLsb bits).toNat.testBit k = (bits.getD k '0' == '1') := by
  -- after `n` rounds the bits below `n` are those of the digits, the others zero
  have hloop : ∀ n ≤ 8, ((List.range n).foldl (fun value bit =>
      if bits.getD bit '0' = '1' then value ||| bitMask bit else value) (0 : UInt8)).toNat.testBit k
        = (decide (k < n) && (bits.getD k '0' == '1')) := by
    intro n hn
    induction n with
    | zero => simp
    | succ n ih =>
      rw [range_succ, foldl_append, foldl_cons, foldl_nil]
      have hput := testBit_putByteBit ((List.range n).foldl (fun value bit =>
        if bits.getD bit '0' = '1' then value ||| bitMask bit else value) 0) n true (by omega) k hk
      rw [putByteBit, if_pos rfl, ih (by omega)] at hput
      by_cases hnk : n = k
      · subst hnk
        split
        · rename_i hone
          rw [hput, if_pos rfl, hone]
          simp
        · rename_i hzero
          rw [ih (by omega), beq_false_of_ne hzero, Bool.and_false, Bool.and_false]
      · rw [if_neg hnk] at hput
        rw [show decide (k < n + 1) = decide (k < n) by
          rw [decide_eq_decide]
          omega]
        split
        · exact hput
        · exact ih (by omega)
  have hall := hloop 8 le_rfl
  rwa [decide_eq_true hk, Bool.true_and] at hall

@[simp] theorem length_writeTail (data : Bytes) (absoluteBit : ℕ) (digits : List Char) :
    (writeTail data absoluteBit digits).length = data.length := by
  induction digits generalizing data absoluteBit with
  | nil => rfl
  | cons digit digits ih => rw [writeTail, ih, length_putBit]

/-- What the last loop leaves. -/
theorem getBit_writeTail (h : absoluteBit + digits.length ≤ 8 * data.length) (i : ℕ) :
    getBit (writeTail data absoluteBit digits) i
      = if absoluteBit ≤ i ∧ i < absoluteBit + digits.length
        then digits.getD (i - absoluteBit) '0' == '1' else getBit data i := by
  induction digits generalizing data absoluteBit with
  | nil => rw [writeTail, if_neg (by simp)]
  | cons digit digits ih =>
    rw [length_cons] at h ⊢
    rw [writeTail, ih (by rw [length_putBit]; omega), getBit_putBit _ _ _ (by omega)]
    by_cases hfirst : absoluteBit = i
    · rw [if_neg (by omega), if_pos hfirst, if_pos (by omega), hfirst, Nat.sub_self, getD_cons_zero]
    · rw [if_neg hfirst]
      by_cases hin : absoluteBit + 1 ≤ i ∧ i < absoluteBit + 1 + digits.length
      · rw [if_pos hin, if_pos (by omega), show i - absoluteBit = i - (absoluteBit + 1) + 1 by omega,
          getD_cons_succ]
      · rw [if_neg hin, if_neg (by omega)]

theorem writeTail_append (data : Bytes) (absoluteBit : ℕ) (first second : List Char) :
    writeTail data absoluteBit (first ++ second)
      = writeTail (writeTail data absoluteBit first) (absoluteBit + first.length) second := by
  induction first generalizing data absoluteBit with
  | nil => rfl
  | cons digit first ih =>
    rw [cons_append, writeTail, writeTail, ih, length_cons, Nat.add_assoc,
      Nat.add_comm 1 first.length]

/-- A whole byte of digits, at a byte boundary. -/
theorem set_parseBitByteLsb (haligned : absoluteBit % 8 = 0) (hdigits : 8 ≤ digits.length)
    (h : absoluteBit + 8 ≤ 8 * data.length) :
    data.set (absoluteBit / 8) (parseBitByteLsb digits)
      = writeTail data absoluteBit (digits.take 8) := by
  have hlen : (digits.take 8).length = 8 := length_take_of_le hdigits
  apply ext_getBit _ _ (by rw [length_set, length_writeTail])
  intro i hi
  rw [length_set] at hi
  rw [getBit_writeTail (by rw [hlen]; omega), hlen]
  unfold getBit
  rw [getD_eq_getElem _ _ (by rw [length_set]; omega), getElem_set]
  by_cases hbyte : absoluteBit / 8 = i / 8
  · rw [if_pos hbyte, if_pos (by omega), testBit_parseBitByteLsb _ (Nat.mod_lt _ (by norm_num)),
      show i - absoluteBit = i % 8 by omega, getD_eq_getElem?_getD, getD_eq_getElem?_getD,
      getElem?_take_of_lt (Nat.mod_lt _ (by norm_num))]
  · rw [if_neg hbyte, if_neg (by omega), getD_eq_getElem _ _ (by omega)]

theorem writeBytes_eq (fuel : ℕ) (haligned : absoluteBit % 8 = 0)
    (h : absoluteBit + digits.length ≤ 8 * data.length) :
    writeBytes fuel data absoluteBit digits = writeTail data absoluteBit digits := by
  induction fuel generalizing data absoluteBit digits with
  | zero => rfl
  | succ fuel ih =>
    unfold writeBytes
    split
    · rename_i hdigits
      have hlen : (digits.take 8).length = 8 := length_take_of_le hdigits
      rw [ih (by omega) (by rw [length_set, length_drop]; omega),
        set_parseBitByteLsb haligned hdigits (by omega)]
      conv_rhs => rw [← take_append_drop 8 digits, writeTail_append, hlen]
    · rfl

theorem writeAligned_eq (h : absoluteBit + digits.length ≤ 8 * data.length) :
    writeAligned data absoluteBit digits = writeTail data absoluteBit digits := by
  induction digits generalizing data absoluteBit with
  | nil => rfl
  | cons digit digits ih =>
    unfold writeAligned
    rw [length_cons] at h
    split
    · rw [ih (by rw [length_putBit]; omega), writeTail]
    · rename_i haligned
      exact writeBytes_eq _ (not_not.mp haligned) h

theorem writeTail_eq_writeBits (data : Bytes) (bitOffset : ℕ) (digits : List Char) :
    writeTail data bitOffset digits = writeBits data bitOffset digits := by
  -- the digits are numbered from any start
  have hstart : ∀ (digits : List Char) (data : Bytes) (start : ℕ),
      (digits.zipIdx start).foldl (fun data digit => putBit data (bitOffset + digit.2) (digit.1 == '1'))
        data = writeTail data (bitOffset + start) digits := by
    intro digits
    induction digits with
    | nil => exact fun _ _ => rfl
    | cons digit digits ih =>
      intro data start
      rw [zipIdx_cons, foldl_cons, ih, writeTail, Nat.add_assoc]
  exact (hstart digits data 0).symm

/-- `WriteBits` writes bit by bit, as the model of the write paths has it. -/
theorem writeBitsLoops_eq (hdigits : isBitString digits = true)
    (h : bitOffset + digits.length ≤ 8 * data.length) :
    writeBitsLoops data bitOffset digits = .ok (writeBits data bitOffset digits) := by
  unfold writeBitsLoops
  rw [if_neg (by rw [hdigits]; simp), if_neg (by omega)]
  split
  · rename_i hempty
    rw [isEmpty_iff.mp hempty]
    rfl
  · rw [writeAligned_eq h, writeTail_eq_writeBits]

/-! ## `WriteValueBits` and `ReadValueBits` -/

/-- The loop of `WriteValueBits` over single bits. -/
def writeValueBitByBit (payload : Bytes) (bitOffset : ℕ) (value : Bytes) (width : ℕ) : Bytes :=
  (List.range width).foldl (fun payload i => putBit payload (bitOffset + i) (getBit value i)) payload

/-- A copy of whole bytes writes the bits of the loop. -/
theorem writeValueBits_eq {payload value : Bytes} {width : ℕ}
    (h : bitOffset + width ≤ 8 * payload.length) (hvalue : value.length = bytesForBits width) :
    writeValueBits payload bitOffset value width
      = writeValueBitByBit payload bitOffset value width := by
  have hlen : (writeValueBitByBit payload bitOffset value width).length = payload.length :=
    length_foldl_eq _ _ _ rfl fun d hd _ _ => (length_putBit d _ _).trans hd
  apply ext_getBit _ _ ((length_writeValueBits _ _ _ _ h).trans hlen.symm)
  intro i _
  rw [getBit_writeValueBits h hvalue]
  exact (getBit_foldl_putBit (getBit value) bitOffset width payload h i).symm

/-- A copy of whole bytes reads the bits of the loop. -/
theorem readValueBits_eq_bitByBit {payload : Bytes} {width : ℕ}
    (h : bitOffset + width ≤ 8 * payload.length) :
    readValueBits payload bitOffset width = readValueBitByBit payload bitOffset width := by
  by_cases haligned : bitOffset % 8 = 0 ∧ width % 8 = 0
  · have hread := (paddedTo_readValueBits payload bitOffset width h).1
    obtain ⟨hlen, hbits⟩ := getBit_readValueBitByBit payload bitOffset width
    apply ext_getBit _ _ (hread.trans hlen.symm)
    intro i hi
    -- the width is whole bytes, so every bit of the buffer is one of the value
    have hwidth : i < width := by
      rw [hread] at hi
      unfold bytesForBits at hi
      omega
    rw [getBit_readValueBits _ _ hwidth, hbits, decide_eq_true hwidth, Bool.true_and]
  · rw [readValueBits, if_neg haligned, readValueBitByBit]

/-! ## Cells -/

/-- A cell of any fixed-width column at any bit offset of a payload.  A value of the column's
type is encoded, written and read back, and every bit outside the cell is as before.  What the
cell holds is a value of the type, whose encoding written back changes nothing.  The fast paths
over whole bytes do what the loops over single bits do. -/
theorem packed_cell_lens (column : Column) (hvalid : column.type.Valid)
    (hfixed : isFixedWidth column.type.kind = true) (payload : Bytes) (bitOffset : ℕ)
    (hroom : bitOffset + fixedWidthBits column.type ≤ 8 * payload.length) :
    (∀ value, HasType column.type value →
      ∃ bytes, encodeColumnValue column value = .ok bytes
        ∧ decodeColumnValue column (readValueBits
            (writeValueBits payload bitOffset bytes (fixedWidthBits column.type)) bitOffset
            (fixedWidthBits column.type)) = .ok value
        ∧ (writeValueBits payload bitOffset bytes (fixedWidthBits column.type)).length
          = payload.length
        ∧ ∀ i, ¬ (bitOffset ≤ i ∧ i < bitOffset + fixedWidthBits column.type) →
          getBit (writeValueBits payload bitOffset bytes (fixedWidthBits column.type)) i
            = getBit payload i)
      ∧ (∃ value, decodeColumnValue column
            (readValueBits payload bitOffset (fixedWidthBits column.type)) = .ok value
          ∧ HasType column.type value
          ∧ encodeColumnValue column value
            = .ok (readValueBits payload bitOffset (fixedWidthBits column.type))
          ∧ writeValueBits payload bitOffset
              (readValueBits payload bitOffset (fixedWidthBits column.type))
              (fixedWidthBits column.type) = payload)
      ∧ ∀ (data : Bytes) (offset width : ℕ), offset + width ≤ 8 * data.length →
        (∀ value : Bytes, value.length = bytesForBits width →
          writeValueBits data offset value width = writeValueBitByBit data offset value width)
        ∧ readValueBits data offset width = readValueBitByBit data offset width
        ∧ extractBits data offset width
          = .ok ((List.range width).map fun i => bitDigit data (offset + i))
        ∧ ∀ digits : List Char, isBitString digits = true → digits.length = width →
          writeBitsLoops data offset digits = .ok (writeBits data offset digits) := by
  refine ⟨fun value htype => ?_, ?_, fun data offset width hrange => ⟨fun value hvalue =>
    writeValueBits_eq hrange hvalue, readValueBits_eq_bitByBit hrange, extractBits_eq hrange,
    fun digits hdigits hwidth => writeBitsLoops_eq hdigits (hwidth ▸ hrange)⟩⟩
  · obtain ⟨bytes, hencode, hpadded, hdecode⟩ := encodeColumnValue_of_hasType hvalid hfixed htype
    have hlength := length_writeValueBits payload bitOffset bytes _ hroom
    have hread : readValueBits (writeValueBits payload bitOffset bytes (fixedWidthBits column.type))
        bitOffset (fixedWidthBits column.type) = bytes := by
      apply readValueBits_eq (hlength ▸ hroom) hpadded
      intro j hj
      rw [getBit_writeValueBits hroom hpadded.1, if_pos (by omega), Nat.add_sub_cancel_left]
    refine ⟨bytes, hencode, by rw [hread, hdecode], hlength, fun i hi => ?_⟩
    rw [getBit_writeValueBits hroom hpadded.1, if_neg hi]
  · have hpadded := paddedTo_readValueBits payload bitOffset _ hroom
    obtain ⟨value, hdecode, htype, hencode⟩ := decodeColumnValue_spec hvalid hfixed hpadded
    refine ⟨value, hdecode, htype, hencode, ?_⟩
    apply ext_getBit _ _ (length_writeValueBits _ _ _ _ hroom)
    intro i _
    rw [getBit_writeValueBits hroom hpadded.1]
    split
    · rename_i hin
      rw [getBit_readValueBits _ _ (by omega), Nat.add_sub_cancel' hin.1]
    · rfl

/-- A cell of five bits that takes the end of one byte and the start of the next. -/
theorem packed_cell_lens_five :
    ∃ bytes, encodeColumnValue ⟨1, "depth", ⟨.signed, 5⟩, false, false, false, []⟩ (.int (-3))
        = .ok bytes
      ∧ decodeColumnValue ⟨1, "depth", ⟨.signed, 5⟩, false, false, false, []⟩
          (readValueBits (writeValueBits [0xFF, 0xFF] 6 bytes 5) 6 5) = .ok (.int (-3)) := by
  obtain ⟨hwrite, _⟩ := packed_cell_lens ⟨1, "depth", ⟨.signed, 5⟩, false, false, false, []⟩
    ⟨by decide, by decide⟩ rfl [0xFF, 0xFF] 6 (by decide)
  obtain ⟨bytes, hencode, hdecode, _⟩ := hwrite (.int (-3)) ⟨rfl, by decide, by decide⟩
  exact ⟨bytes, hencode, hdecode⟩

end ChunkDb
