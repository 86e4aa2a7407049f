/-
# Little-endian numbers in byte strings

Fixed-width little-endian encodings of natural numbers, and reading such a
number at an offset of a longer byte string.  The writer keeps the low bytes of
its argument, as a cast to a narrower unsigned type does; the reader therefore
gives the number back exactly when it fits the width (`leNat_leBytes_of_lt`).

The offset lemmas (`readLe_append_right`, `readLe_append_left`, `readLe_drop`,
`readLe_take`) let a parser proof walk through a concatenation of fields.
-/
import Mathlib.Tactic

namespace LittleEndian

open List

/-- The `w` low bytes of `n`, the lowest one first. -/
def leBytes : ℕ → ℕ → List UInt8
  | 0, _ => []
  | w + 1, n => UInt8.ofNat n :: leBytes w (n / 256)

/-- The number whose bytes, the lowest one first, are `bs`. -/
def leNat : List UInt8 → ℕ
  | [] => 0
  | b :: bs => b.toNat + 256 * leNat bs

/-- The `w`-byte number at offset `off` of `bs`. -/
def readLe (w : ℕ) (bs : List UInt8) (off : ℕ) : ℕ := leNat ((bs.drop off).take w)

/-! ## The round trip -/

variable (w n : ℕ)

@[simp] theorem length_leBytes : (leBytes w n).length = w := by
  induction w generalizing n with
  | zero => rfl
  | succ w ih => rw [leBytes, length_cons, ih]

/-- Reading back what was written gives the low bytes of the number. -/
theorem leNat_leBytes : leNat (leBytes w n) = n % 256 ^ w := by
  induction w generalizing n with
  | zero => rw [leBytes, leNat, pow_zero, Nat.mod_one]
  | succ w ih =>
    have hb : (UInt8.ofNat n).toNat = n % 256 := by simp
    rw [leBytes, leNat, ih, hb, pow_succ', Nat.mod_mul]

/-- A number that fits the width is read back as it was. -/
theorem leNat_leBytes_of_lt (h : n < 256 ^ w) : leNat (leBytes w n) = n := by
  rw [leNat_leBytes, Nat.mod_eq_of_lt h]

/-- A byte string of length `w` holds a number below `256 ^ w`. -/
theorem leNat_lt (bs : List UInt8) : leNat bs < 256 ^ bs.length := by
  induction bs with
  | nil => simp [leNat]
  | cons b bs ih =>
    have hb := b.toNat_lt
    rw [leNat, length_cons, pow_succ']
    omega

/-- Writing the number a byte string holds gives the byte string back. -/
theorem leBytes_leNat (bs : List UInt8) : leBytes bs.length (leNat bs) = bs := by
  induction bs with
  | nil => rfl
  | cons b bs ih =>
    have hb := b.toNat_lt
    have hdiv : leNat (b :: bs) / 256 = leNat bs := by
      rw [leNat]
      omega
    have hlow : UInt8.ofNat (leNat (b :: bs)) = b := by
      apply UInt8.toNat_inj.mp
      simp only [leNat, UInt8.toNat_ofNat']
      omega
    rw [length_cons, leBytes, hdiv, ih, hlow]

/-! ## Reading inside a longer byte string -/

theorem readLe_lt (w : ℕ) (bs : List UInt8) (off : ℕ) : readLe w bs off < 256 ^ w := by
  have hlen : ((bs.drop off).take w).length ≤ w := length_take_le _ _
  exact lt_of_lt_of_le (leNat_lt _) (Nat.pow_le_pow_right (by norm_num) hlen)

/-- A read past the first part of an append happens in the second part. -/
theorem readLe_append_right (w : ℕ) (p s : List UInt8) (off : ℕ) (h : p.length ≤ off) :
    readLe w (p ++ s) off = readLe w s (off - p.length) := by
  rw [readLe, readLe, drop_append, drop_eq_nil_of_le h, nil_append]

/-- A read that ends inside the first part of an append happens there. -/
theorem readLe_append_left (w : ℕ) (p s : List UInt8) (off : ℕ) (h : off + w ≤ p.length) :
    readLe w (p ++ s) off = readLe w p off := by
  rw [readLe, readLe, drop_append_of_le_length (by omega),
    take_append_of_le_length (by rw [length_drop]; omega)]

/-- The number just written is read back at the front. -/
theorem readLe_leBytes (s : List UInt8) (h : n < 256 ^ w) :
    readLe w (leBytes w n ++ s) 0 = n := by
  rw [readLe_append_left _ _ _ _ (by simp), readLe, drop_zero,
    take_of_length_le (by simp), leNat_leBytes_of_lt _ _ h]

theorem readLe_drop (w : ℕ) (bs : List UInt8) (k off : ℕ) :
    readLe w (bs.drop k) off = readLe w bs (k + off) := by
  rw [readLe, readLe, drop_drop]

/-- Cutting a byte string does not change a read that ends before the cut. -/
theorem readLe_take (w : ℕ) (bs : List UInt8) (k off : ℕ) (h : off + w ≤ k) :
    readLe w (bs.take k) off = readLe w bs off := by
  rw [readLe, readLe, drop_take, take_take, Nat.min_eq_left (by omega)]

/-- A number between other bytes is read back. -/
theorem readLe_middle (p s : List UInt8) (off : ℕ) (hoff : off = p.length)
    (h : n < 256 ^ w) : readLe w (p ++ (leBytes w n ++ s)) off = n := by
  rw [readLe_append_right _ _ _ _ (by omega), hoff, Nat.sub_self]
  exact readLe_leBytes w n s h

/-! ## Fields in a row -/

/-- A part of a record: a number of some width, or bytes. -/
inductive Field
  | num (w n : ℕ)
  | raw (bytes : List UInt8)

/-- A record, its fields in a row, and what follows it. -/
def encodeFields : List Field → List UInt8 → List UInt8
  | [], s => s
  | .num w n :: fields, s => leBytes w n ++ encodeFields fields s
  | .raw bytes :: fields, s => bytes ++ encodeFields fields s

/-- From offset `off` on the fields are read back, the numbers that fit their width. -/
def FieldsAt : List Field → List UInt8 → ℕ → Prop
  | [], _, _ => True
  | .num w n :: fields, bs, off =>
    (n < 256 ^ w → readLe w bs off = n) ∧ FieldsAt fields bs (off + w)
  | .raw bytes :: fields, bs, off =>
    (bs.drop off).take bytes.length = bytes ∧ FieldsAt fields bs (off + bytes.length)

theorem fieldsAt_append (fields : List Field) (p s : List UInt8) {off : ℕ} (hoff : off = p.length) :
    FieldsAt fields (p ++ encodeFields fields s) off := by
  induction fields generalizing p off with
  | nil => trivial
  | cons field fields ih =>
    cases field with
    | num w n =>
      refine ⟨fun h => readLe_middle w n p _ off hoff h, ?_⟩
      rw [encodeFields, ← append_assoc]
      exact ih _ (by simp [hoff])
    | raw bytes =>
      refine ⟨?_, ?_⟩
      · rw [encodeFields, drop_left' hoff.symm, take_left]
      · rw [encodeFields, ← append_assoc]
        exact ih _ (by simp [hoff])

/-- A record is read back field by field. -/
theorem fieldsAt_encodeFields (fields : List Field) (s : List UInt8) :
    FieldsAt fields (encodeFields fields s) 0 :=
  fieldsAt_append fields [] s rfl

end LittleEndian
