/-
# The bits of a payload

What the loops over a payload (`chunk_layout.cpp`) do to its bits.
-/
import ChunkDb.SchemaSteps

open ByteBits List

namespace ChunkDb

theorem getBit_of_length_le {data : Bytes} {i : ℕ} (h : 8 * data.length ≤ i) :
    getBit data i = false := by
  rw [getBit, getD_eq_default _ _ (by omega)]
  exact Nat.zero_testBit _

/-- A copy changes the bits of its own range. -/
theorem getBit_copyInto (data : Bytes) (offset : ℕ) (bytes : Bytes)
    (h : offset + bytes.length ≤ data.length) (i : ℕ) :
    getBit (copyInto data offset bytes) i
      = if offset * 8 ≤ i ∧ i < (offset + bytes.length) * 8 then getBit bytes (i - offset * 8)
        else getBit data i := by
  have htake : (data.take offset).length = offset := length_take_of_le (by omega)
  unfold copyInto
  split
  · rename_i hin
    obtain ⟨j, rfl⟩ : ∃ j, i = 8 * offset + j := ⟨i - 8 * offset, by omega⟩
    have hright := getBit_append_right (data.take offset)
      (bytes ++ data.drop (offset + bytes.length)) j
    rw [htake] at hright
    rw [append_assoc, hright, getBit_append_left _ _ _ (by omega)]
    congr 1
    omega
  · rename_i hout
    by_cases hlow : i < offset * 8
    · rw [getBit_append_left _ _ _ (by rw [length_append, htake]; omega),
        getBit_append_left _ _ _ (by rw [htake]; omega), getBit_take, if_pos (by omega)]
    · obtain ⟨j, rfl⟩ : ∃ j, i = 8 * (offset + bytes.length) + j :=
        ⟨i - 8 * (offset + bytes.length), by omega⟩
      have hright := getBit_append_right (data.take offset ++ bytes)
        (data.drop (offset + bytes.length)) j
      rw [length_append, htake] at hright
      rw [hright, getBit_drop]

/-- A loop that puts one bit after the other. -/
theorem getBit_foldl_putBit (v : ℕ → Bool) (offset n : ℕ) (data : Bytes)
    (h : offset + n ≤ 8 * data.length) (j : ℕ) :
    getBit ((List.range n).foldl (fun data i => putBit data (offset + i) (v i)) data) j
      = if offset ≤ j ∧ j < offset + n then v (j - offset) else getBit data j := by
  induction n with
  | zero => rw [range_zero, foldl_nil, if_neg (by omega)]
  | succ n ih =>
    have hlen : ((List.range n).foldl (fun data i => putBit data (offset + i) (v i)) data).length
        = data.length :=
      length_foldl_eq _ _ _ rfl (fun d hd _ _ => (length_putBit d _ _).trans hd)
    rw [range_succ, foldl_append, foldl_cons, foldl_nil,
      getBit_putBit _ _ _ (by rw [hlen]; omega), ih (by omega)]
    by_cases hlast : offset + n = j
    · rw [if_pos hlast, if_pos (by omega)]
      congr 1
      omega
    · rw [if_neg hlast]
      by_cases hin : offset ≤ j ∧ j < offset + n
      · rw [if_pos hin, if_pos (by omega)]
      · rw [if_neg hin, if_neg (by omega)]

/-- `WriteValueBits` puts the bits of the value. -/
theorem getBit_writeValueBits {payload value : Bytes} {bitOffset width : ℕ}
    (h : bitOffset + width ≤ 8 * payload.length) (hvalue : value.length = bytesForBits width)
    (j : ℕ) :
    getBit (writeValueBits payload bitOffset value width) j
      = if bitOffset ≤ j ∧ j < bitOffset + width then getBit value (j - bitOffset)
        else getBit payload j := by
  unfold bytesForBits at hvalue
  unfold writeValueBits
  split
  · rename_i haligned
    have htake : value.take (width / 8) = value := take_of_length_le (by omega)
    have hlen : value.length = width / 8 := by omega
    rw [htake, getBit_copyInto _ _ _ (by omega), hlen]
    have hoffset : bitOffset / 8 * 8 = bitOffset := by omega
    have hend : (bitOffset / 8 + width / 8) * 8 = bitOffset + width := by omega
    rw [hoffset, hend]
  · exact getBit_foldl_putBit (getBit value) bitOffset width payload h j

/-- The loop of `ReadValueBits` over single bits. -/
def readValueBitByBit (payload : Bytes) (bitOffset width : ℕ) : Bytes :=
  (List.range width).foldl
    (fun value i => if getBit payload (bitOffset + i) then putBit value i true else value)
    (List.replicate (bytesForBits width) 0)

theorem getBit_readValueBitByBit (payload : Bytes) (bitOffset width : ℕ) :
    (readValueBitByBit payload bitOffset width).length = bytesForBits width
      ∧ ∀ j, getBit (readValueBitByBit payload bitOffset width) j
        = (decide (j < width) && getBit payload (bitOffset + j)) := by
  -- after `n` rounds the bits below `n` are those of the payload, the others zero
  have hloop : ∀ n ≤ width, ∀ value, (List.range n).foldl (fun value i =>
      if getBit payload (bitOffset + i) then putBit value i true else value)
        (List.replicate (bytesForBits width) 0) = value →
      value.length = bytesForBits width
        ∧ ∀ j, getBit value j = (decide (j < n) && getBit payload (bitOffset + j)) := by
    intro n hn
    induction n with
    | zero =>
      rintro value rfl
      exact ⟨length_replicate, fun j => by simp [getBit_zeros]⟩
    | succ n ih =>
      rintro value rfl
      have hbits := le_bytesForBits width
      obtain ⟨hlen, hbefore⟩ := ih (by omega) _ rfl
      rw [range_succ, foldl_append, foldl_cons, foldl_nil]
      split
      · rename_i hset
        refine ⟨(length_putBit ..).trans hlen, fun j => ?_⟩
        rw [getBit_putBit _ _ _ (by omega), hbefore]
        by_cases hj : n = j
        · subst hj
          simp [hset]
        · rw [if_neg hj, show decide (j < n) = decide (j < n + 1) by rw [decide_eq_decide]; omega]
      · rename_i hclear
        refine ⟨hlen, fun j => ?_⟩
        rw [hbefore]
        by_cases hj : n = j
        · subst hj
          simp [hclear]
        · rw [show decide (j < n) = decide (j < n + 1) by rw [decide_eq_decide]; omega]
  exact hloop width le_rfl _ rfl

/-- `ReadValueBits` takes the bits of the value. -/
theorem getBit_readValueBits (payload : Bytes) (bitOffset : ℕ) {width j : ℕ} (hj : j < width) :
    getBit (readValueBits payload bitOffset width) j = getBit payload (bitOffset + j) := by
  unfold readValueBits
  split
  · rename_i haligned
    rw [getBit_take, if_pos (by omega), getBit_drop]
    congr 1
    omega
  · have hbits := (getBit_readValueBitByBit payload bitOffset width).2 j
    rwa [decide_eq_true hj, Bool.true_and] at hbits

/-- A padded buffer is the value it is read back as. -/
theorem readValueBits_eq {payload value : Bytes} {bitOffset width : ℕ}
    (h : bitOffset + width ≤ 8 * payload.length) (hvalue : PaddedTo width value)
    (hbits : ∀ j < width, getBit payload (bitOffset + j) = getBit value j) :
    readValueBits payload bitOffset width = value := by
  have hread := paddedTo_readValueBits payload bitOffset width h
  apply ext_getBit _ _ (hread.1.trans hvalue.1.symm)
  intro j _
  by_cases hj : j < width
  · rw [getBit_readValueBits _ _ hj, hbits j hj]
  · rw [hread.2 j (by omega), hvalue.2 j (by omega)]

end ChunkDb
