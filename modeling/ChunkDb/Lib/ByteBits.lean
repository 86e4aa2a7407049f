/-
# Bits of a byte string

Bit `i` of a byte string is bit `i % 8`, counted from the low end, of byte
`i / 8`.  `getBit` and `putBit` read and write one bit; `bitsOf` lists all of
them in that order, the order in which a reflected shift register takes them.
-/
import Mathlib.Data.List.GetD
import Mathlib.Tactic

namespace ByteBits

open List

/-- Bit `i` of a byte string; false past its end. -/
def getBit (bs : List UInt8) (i : ℕ) : Bool := (bs.getD (i / 8) 0).toNat.testBit (i % 8)

/-- The byte with only bit `k` set. -/
def bitMask (k : ℕ) : UInt8 := 1 <<< UInt8.ofNat k

/-- The byte `b` with bit `k` set to `v`. -/
def putByteBit (b : UInt8) (k : ℕ) (v : Bool) : UInt8 :=
  if v then b ||| bitMask k else b &&& ~~~ (bitMask k)

/-- The byte string with bit `i` set to `v`. -/
def putBit (bs : List UInt8) (i : ℕ) (v : Bool) : List UInt8 :=
  bs.modify (i / 8) (fun b => putByteBit b (i % 8) v)

/-- The eight bits of a byte, the lowest one first. -/
def byteBits (b : UInt8) : List Bool := (List.range 8).map b.toNat.testBit

/-- The bits of a byte string in order. -/
def bitsOf (bs : List UInt8) : List Bool := bs.flatMap byteBits

/-! ## One byte -/

theorem toNat_bitMask (k : ℕ) (hk : k < 8) : (bitMask k).toNat = 2 ^ k := by
  interval_cases k <;> rfl

/-- Writing a bit of a byte changes that bit and no other. -/
theorem testBit_putByteBit (b : UInt8) (k : ℕ) (v : Bool) (hk : k < 8) (j : ℕ) (hj : j < 8) :
    (putByteBit b k v).toNat.testBit j = if k = j then v else b.toNat.testBit j := by
  cases v with
  | true =>
    rw [putByteBit, if_pos rfl, UInt8.toNat_or, toNat_bitMask k hk, Nat.testBit_or,
      Nat.testBit_two_pow]
    by_cases h : k = j <;> simp [h]
  | false =>
    have hnot : (~~~ (bitMask k)).toNat = 2 ^ 8 - (2 ^ k + 1) := by
      interval_cases k <;> rfl
    have hlt : 2 ^ k < 2 ^ 8 := Nat.pow_lt_pow_right (by norm_num) hk
    rw [putByteBit, if_neg (by simp), UInt8.toNat_and, hnot, Nat.testBit_and,
      Nat.testBit_two_pow_sub_succ hlt, Nat.testBit_two_pow]
    by_cases h : k = j <;> simp [h, hj]

/-- Bytes with the same bits are the same byte. -/
theorem byte_ext (a b : UInt8) (h : ∀ k < 8, a.toNat.testBit k = b.toNat.testBit k) : a = b := by
  apply UInt8.toNat_inj.mp
  apply Nat.eq_of_testBit_eq
  intro k
  by_cases hk : k < 8
  · exact h k hk
  · have hpow : (2 : ℕ) ^ 8 ≤ 2 ^ k := Nat.pow_le_pow_right (by norm_num) (by omega)
    rw [Nat.testBit_lt_two_pow (lt_of_lt_of_le a.toNat_lt hpow),
      Nat.testBit_lt_two_pow (lt_of_lt_of_le b.toNat_lt hpow)]

/-! ## Byte strings -/

variable (bs : List UInt8)

@[simp] theorem length_putBit (i : ℕ) (v : Bool) :
    (putBit bs i v).length = bs.length := by
  rw [putBit, length_modify]

/-- Writing a bit of a byte string changes that bit and no other. -/
theorem getBit_putBit (i : ℕ) (v : Bool) (hi : i / 8 < bs.length) (j : ℕ) :
    getBit (putBit bs i v) j = if i = j then v else getBit bs j := by
  have hi8 : i % 8 < 8 := Nat.mod_lt _ (by norm_num)
  have hj8 : j % 8 < 8 := Nat.mod_lt _ (by norm_num)
  unfold getBit putBit
  by_cases hbyte : i / 8 = j / 8
  · have hj : j / 8 < bs.length := by omega
    rw [getD_eq_getElem _ _ (by rw [length_modify]; exact hj), getElem_modify,
      if_pos hbyte, testBit_putByteBit _ _ _ hi8 _ hj8, getD_eq_getElem _ _ hj]
    by_cases hbit : i % 8 = j % 8
    · rw [if_pos hbit, if_pos (by omega)]
    · rw [if_neg hbit, if_neg (by omega)]
  · rw [if_neg (by omega)]
    congr 2
    rw [getD_eq_getElem?_getD, getD_eq_getElem?_getD, getElem?_modify]
    simp [hbyte]

/-- Setting a bit leaves the others as they are. -/
theorem getBit_putBit_ne (i : ℕ) (v : Bool) (j : ℕ) (h : i ≠ j) :
    getBit (putBit bs i v) j = getBit bs j := by
  by_cases hi : i / 8 < bs.length
  · rw [getBit_putBit bs i v hi, if_neg h]
  · rw [putBit, modify_eq_self (by omega)]

variable (p s : List UInt8)

/-- A bit inside the first part of an append is read there. -/
theorem getBit_append_left (i : ℕ) (h : i < 8 * p.length) :
    getBit (p ++ s) i = getBit p i := by
  unfold getBit
  rw [getD_append _ _ _ _ (by omega)]

/-- A bit past the first part of an append is read in the second part. -/
theorem getBit_append_right (i : ℕ) :
    getBit (p ++ s) (8 * p.length + i) = getBit s i := by
  unfold getBit
  have hdiv : (8 * p.length + i) / 8 = p.length + i / 8 := by omega
  have hmod : (8 * p.length + i) % 8 = i % 8 := by omega
  rw [hdiv, hmod, getD_append_right _ _ _ _ (by omega), Nat.add_sub_cancel_left]

theorem getBit_drop (k i : ℕ) : getBit (bs.drop k) i = getBit bs (8 * k + i) := by
  unfold getBit
  have hdiv : (8 * k + i) / 8 = k + i / 8 := by omega
  have hmod : (8 * k + i) % 8 = i % 8 := by omega
  rw [hdiv, hmod, getD_eq_getElem?_getD, getD_eq_getElem?_getD, getElem?_drop]

theorem getBit_take (n i : ℕ) :
    getBit (bs.take n) i = if i < 8 * n then getBit bs i else false := by
  unfold getBit
  by_cases h : i < 8 * n
  · rw [if_pos h, getD_eq_getElem?_getD, getElem?_take_of_lt (by omega), ← getD_eq_getElem?_getD]
  · rw [if_neg h, getD_eq_default _ _ (by rw [length_take]; omega)]
    exact Nat.zero_testBit _

theorem getBit_zeros (n i : ℕ) : getBit (List.replicate n 0) i = false := by
  rw [getBit, getD_eq_getElem?_getD, getElem?_replicate]
  split <;> simp

/-- Byte strings of one length with the same bits are the same. -/
theorem ext_getBit (a b : List UInt8) (hlen : a.length = b.length)
    (h : ∀ i < 8 * a.length, getBit a i = getBit b i) : a = b := by
  apply ext_getElem hlen
  intro n hn hn'
  apply byte_ext
  intro k hk
  have hbit := h (8 * n + k) (by omega)
  unfold getBit at hbit
  have hdiv : (8 * n + k) / 8 = n := by omega
  have hmod : (8 * n + k) % 8 = k := by omega
  rw [hdiv, hmod, getD_eq_getElem _ _ hn, getD_eq_getElem _ _ hn'] at hbit
  exact hbit

/-! ## The bits in order -/

@[simp] theorem length_byteBits (b : UInt8) : (byteBits b).length = 8 := by
  simp [byteBits]

theorem length_bitsOf : (bitsOf bs).length = 8 * bs.length := by
  induction bs with
  | nil => rfl
  | cons b bs ih =>
    rw [bitsOf, flatMap_cons, length_append, length_byteBits, ← bitsOf, ih, length_cons]
    ring

theorem bitsOf_append : bitsOf (p ++ s) = bitsOf p ++ bitsOf s :=
  flatMap_append

/-- Entry `i` of the list of bits is bit `i`. -/
theorem getD_bitsOf (i : ℕ) : (bitsOf bs).getD i false = getBit bs i := by
  induction bs generalizing i with
  | nil => simp [bitsOf, getBit]
  | cons b bs ih =>
    rw [bitsOf, flatMap_cons, ← bitsOf]
    by_cases hi : i < 8
    · rw [getD_append _ _ _ _ (by rw [length_byteBits]; exact hi), getBit,
        Nat.div_eq_of_lt hi, Nat.mod_eq_of_lt hi, getD_cons_zero]
      simp [byteBits, getD_eq_getElem?_getD, hi]
    · obtain ⟨j, rfl⟩ : ∃ j, i = 8 + j := ⟨i - 8, by omega⟩
      rw [getD_append_right _ _ _ _ (by rw [length_byteBits]; omega), length_byteBits,
        Nat.add_sub_cancel_left, ih]
      exact (getBit_append_right [b] bs j).symm

end ByteBits
