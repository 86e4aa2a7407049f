/-
# 128-bit arithmetic of expressions

The integer operations of `expr_eval.cpp`.  An `Int` and a `UInt` of the source are the same
128 bits; sums wrap, and the product is put together from 64-bit halves of the magnitudes.
Each operation returns the number it should or throws: none returns a wrapped value.
-/
import ChunkDb.Basic

namespace ChunkDb

/-! ## The model -/

/-- The 128 bits of an `Int` or a `UInt`. -/
abbrev Int128 := BitVec 128

def kLow64 : Int128 := 0xFFFFFFFFFFFFFFFF

def kIntMin : Int128 := 1 <<< 127

/-- `Overflow`. -/
def overflow {A : Type} : Fallible A :=
  .error ⟨.outOfRange, "an integer result is outside the 128-bit range"⟩

namespace Int128

/-- `Magnitude`. -/
def magnitude (value : Int128) : Int128 := if value.toInt < 0 then 0 - value else value

/-- The loop of `Decimal`. -/
def decimalLoop (magnitude : ℕ) (digits : List Char) : List Char :=
  let digits := Char.ofNat (48 + magnitude % 10) :: digits
  if magnitude / 10 = 0 then digits else decimalLoop (magnitude / 10) digits
  termination_by magnitude

/-- `Decimal`. -/
def decimal (value : Int128) : String :=
  let digits := String.ofList (decimalLoop (magnitude value).toNat [])
  if value.toInt < 0 then "-" ++ digits else digits

/-- `Add`. -/
def add (a b : Int128) : Fallible Int128 :=
  let out := a + b
  if ((a ^^^ out) &&& (b ^^^ out)).toInt < 0 then overflow else .ok out

/-- `Subtract`. -/
def subtract (a b : Int128) : Fallible Int128 :=
  let out := a - b
  if ((a ^^^ b) &&& (a ^^^ out)).toInt < 0 then overflow else .ok out

/-- `Multiply`. -/
def multiply (a b : Int128) : Fallible Int128 :=
  let x := magnitude a
  let y := magnitude b
  if kLow64 < x ∧ kLow64 < y then overflow
  else
    let small := if x ≤ kLow64 then x else y
    let big := if x ≤ kLow64 then y else x
    let high := small * (big >>> 64)
    if kLow64 < high then overflow
    else
      let low := small * (big &&& kLow64)
      let product := low + high <<< 64
      if product < low then overflow
      else
        let negative := decide (a.toInt < 0) != decide (b.toInt < 0)
        let limit : Int128 := 1 <<< 127
        if (if negative then limit < product else limit ≤ product) then overflow
        else .ok (if negative then 0 - product else product)

/-- `Divide`. -/
def divide (a b : Int128) : Fallible Int128 :=
  if b = 0 then invalidArgument "division by zero"
  else if a = kIntMin ∧ b = -1 then overflow
  else .ok (a.sdiv b)

/-- `Modulo`. -/
def modulo (a b : Int128) : Fallible Int128 :=
  if b = 0 then invalidArgument "modulo by zero" else .ok (if b = -1 then 0 else a.srem b)

/-! ## Exactness -/

/-- The number itself where it has 128 bits, and an overflow elsewhere. -/
def exact (z : ℤ) : Fallible ℤ := if -2 ^ 127 ≤ z ∧ z < 2 ^ 127 then .ok z else overflow

/-- A result that is right where there is no overflow. -/
theorem map_exact {P : Prop} [Decidable P] {out : Int128} {z : ℤ}
    (hover : P ↔ ¬ (-2 ^ 127 ≤ z ∧ z < 2 ^ 127)) (hout : ¬ P → out.toInt = z) :
    (if P then overflow else .ok out : Fallible Int128).map BitVec.toInt = exact z := by
  unfold exact
  by_cases h : P
  · rw [if_pos h, if_neg (hover.mp h)]
    rfl
  · rw [if_neg h, if_pos (not_not.mp (mt hover.mpr h)), ← hout h]
    rfl

variable (a b : Int128)

theorem add_exact : (add a b).map BitVec.toInt = exact (a.toInt + b.toInt) := by
  have hover : ((a ^^^ (a + b)) &&& (b ^^^ (a + b))).toInt < 0 ↔ a.saddOverflow b = true := by
    rw [BitVec.saddOverflow_eq, ← decide_eq_true_iff (p := _ < 0), ← BitVec.msb_eq_toInt]
    simp only [BitVec.msb_and, BitVec.msb_xor]
    cases a.msb <;> cases b.msb <;> cases (a + b).msb <;> decide
  refine map_exact ?_ fun h => BitVec.toInt_add_of_not_saddOverflow (mt hover.mpr h)
  rw [hover]
  simp only [BitVec.saddOverflow, Bool.or_eq_true, decide_eq_true_eq]
  omega

theorem subtract_exact :
    (subtract a b).map BitVec.toInt = exact (a.toInt - b.toInt) := by
  have hover : ((a ^^^ b) &&& (a ^^^ (a - b))).toInt < 0 ↔ a.ssubOverflow b = true := by
    rw [BitVec.ssubOverflow_eq, ← decide_eq_true_iff (p := _ < 0), ← BitVec.msb_eq_toInt]
    simp only [BitVec.msb_and, BitVec.msb_xor]
    cases a.msb <;> cases b.msb <;> cases (a - b).msb <;> decide
  refine map_exact ?_ fun h => BitVec.toInt_sub_of_not_ssubOverflow (mt hover.mpr h)
  rw [hover]
  simp only [BitVec.ssubOverflow, Bool.or_eq_true, decide_eq_true_eq]
  omega

theorem toNat_zero_sub (x : Int128) : (0 - x).toNat = (2 ^ 128 - x.toNat) % 2 ^ 128 := by
  rw [BitVec.toNat_sub]
  rfl

theorem toNat_magnitude (value : Int128) : (magnitude value).toNat = value.toInt.natAbs := by
  have hlt := value.isLt
  unfold magnitude
  have hint := BitVec.toInt_eq_toNat_cond value
  split
  · rw [toNat_zero_sub]
    split at hint <;> omega
  · split at hint <;> omega

/-- The product of two magnitudes, of which one has 64 bits: the two checks find whether it has
128 bits, and then it is not wrapped. -/
theorem product_spec (big : Int128) {small high low product : Int128} (hsmall : small ≤ kLow64)
    (hhigh : high = small * (big >>> 64)) (hlow : low = small * (big &&& kLow64))
    (hproduct : product = low + high <<< 64) :
    (kLow64 < high ∨ product < low ↔ 2 ^ 128 ≤ small.toNat * big.toNat)
      ∧ (¬ kLow64 < high → ¬ product < low → product.toNat = small.toNat * big.toNat) := by
  have hlt : small.toNat < 2 ^ 64 := Nat.lt_succ_of_le hsmall
  have hbound {n : ℕ} (hn : n < 2 ^ 64) : small.toNat * n < 2 ^ 128 := by
    rw [show 2 ^ 128 = 2 ^ 64 * 2 ^ 64 by decide]
    exact Nat.mul_lt_mul'' hlt hn
  have hbig := big.isLt
  have hlarge := hbound (n := big.toNat / 2 ^ 64) (by omega)
  have hrest := hbound (n := big.toNat % 2 ^ 64) (by omega)
  have hsum : small.toNat * big.toNat
      = small.toNat * (big.toNat / 2 ^ 64) * 2 ^ 64 + small.toNat * (big.toNat % 2 ^ 64) := by
    rw [mul_assoc, ← mul_add, mul_comm (big.toNat / _), Nat.div_add_mod]
  have hhigh : high.toNat = small.toNat * (big.toNat / 2 ^ 64) := by
    rw [hhigh, BitVec.toNat_mul, BitVec.toNat_ushiftRight, Nat.shiftRight_eq_div_pow,
      Nat.mod_eq_of_lt hlarge]
  have hlow : low.toNat = small.toNat * (big.toNat % 2 ^ 64) := by
    rw [hlow, BitVec.toNat_mul, BitVec.toNat_and, show kLow64.toNat = 2 ^ 64 - 1 from rfl,
      Nat.and_two_pow_sub_one_eq_mod, Nat.mod_eq_of_lt hrest]
  rw [← hhigh, ← hlow] at hsum
  have hlt := low.isLt
  have hvalue : product.toNat = (low.toNat + high.toNat * 2 ^ 64 % 2 ^ 128) % 2 ^ 128 := by
    rw [hproduct, BitVec.toNat_add, BitVec.toNat_shiftLeft, Nat.shiftLeft_eq]
  rw [BitVec.lt_def, BitVec.lt_def, show kLow64.toNat = 2 ^ 64 - 1 from rfl]
  omega

theorem mul_sign (a b : ℤ) :
    ((decide (a < 0) != decide (b < 0)) = true → a * b ≤ 0)
      ∧ ((decide (a < 0) != decide (b < 0)) = false → 0 ≤ a * b) := by
  by_cases ha : a < 0 <;> by_cases hb : b < 0 <;> simp [ha, hb] <;> nlinarith

theorem multiply_exact :
    (multiply a b).map BitVec.toInt = exact (a.toInt * b.toInt) := by
  have habs := Int.natAbs_mul a.toInt b.toInt
  rw [← toNat_magnitude, ← toNat_magnitude] at habs
  have hlarge (h : 2 ^ 127 < (a.toInt * b.toInt).natAbs) :
      (overflow : Fallible Int128).map BitVec.toInt = exact (a.toInt * b.toInt) :=
    (if_neg (by omega)).symm
  unfold multiply
  dsimp only
  generalize magnitude a = x at *
  generalize magnitude b = y at *
  split
  · rename_i hboth
    have hx : 2 ^ 64 ≤ x.toNat := hboth.1
    have hy : 2 ^ 64 ≤ y.toNat := hboth.2
    have hle := Nat.mul_le_mul hx hy
    exact hlarge (by omega)
  · rename_i hone
    obtain ⟨hsmall, hmul⟩ : (if x ≤ kLow64 then x else y) ≤ kLow64
        ∧ (if x ≤ kLow64 then x else y).toNat * (if x ≤ kLow64 then y else x).toNat
          = x.toNat * y.toNat := by
      split
      · exact ⟨‹_›, rfl⟩
      · rename_i hx
        exact ⟨BitVec.not_lt.mp fun hy => hone ⟨BitVec.not_le.mp hx, hy⟩, mul_comm _ _⟩
    generalize (if x ≤ kLow64 then x else y) = small at *
    generalize (if x ≤ kLow64 then y else x) = big at *
    obtain ⟨hover, hvalue⟩ := product_spec big hsmall rfl rfl rfl
    rw [hmul, ← habs] at hover hvalue
    split
    · rename_i hhigh
      exact hlarge (lt_of_lt_of_le (by decide) (hover.mp (.inl hhigh)))
    split
    · rename_i _ hwrapped
      exact hlarge (lt_of_lt_of_le (by decide) (hover.mp (.inr hwrapped)))
    rename_i hhigh hwrapped
    have hvalue := hvalue hhigh hwrapped
    have hsign := mul_sign a.toInt b.toInt
    clear hover hlarge hmul hhigh hwrapped habs
    generalize small * (big &&& kLow64) + (small * (big >>> 64)) <<< 64 = product at *
    generalize a.toInt * b.toInt = z at *
    have hlt := product.isLt
    cases hnegative : decide (a.toInt < 0) != decide (b.toInt < 0) with
    | true =>
      have hle := hsign.1 hnegative
      simp only [if_true, BitVec.lt_def]
      refine map_exact ?_ fun h => ?_
      · change 2 ^ 127 < product.toNat ↔ _
        omega
      · change ¬ 2 ^ 127 < product.toNat at h
        rw [BitVec.toInt_eq_toNat_cond, toNat_zero_sub]
        split <;> omega
    | false =>
      have hle := hsign.2 hnegative
      simp only [Bool.false_eq_true, if_false, BitVec.le_def]
      refine map_exact ?_ fun h => ?_
      · change 2 ^ 127 ≤ product.toNat ↔ _
        omega
      · change ¬ 2 ^ 127 ≤ product.toNat at h
        rw [BitVec.toInt_eq_toNat_cond]
        split <;> omega

theorem divide_exact (hb : b ≠ 0) :
    (divide a b).map BitVec.toInt = exact (a.toInt.tdiv b.toInt) := by
  have hdiv (h : ¬ (a = kIntMin ∧ b = -1)) : (a.sdiv b).toInt = a.toInt.tdiv b.toInt :=
    BitVec.toInt_sdiv_of_ne_or_ne a b (not_and_or.mp h)
  rw [divide, if_neg hb]
  refine map_exact ⟨?_, fun hout => ?_⟩ hdiv
  · rintro ⟨rfl, rfl⟩
    decide +kernel
  · by_contra h
    rw [← hdiv h] at hout
    exact hout ⟨BitVec.le_toInt _, BitVec.toInt_lt⟩

theorem modulo_exact (hb : b ≠ 0) :
    (modulo a b).map BitVec.toInt = exact (a.toInt.tmod b.toInt) := by
  rw [modulo, if_neg hb, ← BitVec.toInt_srem]
  refine Eq.trans (congrArg Except.ok ?_) (if_pos ⟨BitVec.le_toInt _, BitVec.toInt_lt⟩).symm
  split
  · rename_i h
    rw [h, BitVec.toInt_srem, show (-1 : Int128).toInt = -1 from by decide +kernel, Int.tmod_neg,
      Int.tmod_one]
    rfl
  · rfl

theorem decimalLoop_eq (n : ℕ) (digits : List Char) :
    decimalLoop n digits = Nat.toDigits 10 n ++ digits := by
  have hchar (d : Fin 10) : Char.ofNat (48 + d) = Nat.digitChar d := by
    revert d
    decide
  induction n using Nat.strong_induction_on generalizing digits with
  | _ n ih =>
    rw [decimalLoop, Nat.toDigits_eq_if (by decide)]
    have hdigit := hchar ⟨n % 10, Nat.mod_lt _ (by decide)⟩
    dsimp only at hdigit ⊢
    rw [hdigit]
    by_cases h : n < 10
    · rw [if_pos (Nat.div_eq_of_lt h), if_pos h, Nat.mod_eq_of_lt h]
      rfl
    · rw [if_neg (by omega), if_neg h, ih _ (by omega), List.append_assoc]
      rfl

theorem decimal_eq (value : Int128) : decimal value = toString value.toInt := by
  rw [decimal, toNat_magnitude, decimalLoop_eq, List.append_nil]
  cases value.toInt with
  | ofNat n => exact if_neg (by simp)
  | negSucc n => exact if_pos (Int.negSucc_lt_zero n)

/-- For all 128-bit integers the five operations return the sum, the difference, the product, the
quotient truncated toward zero and the remainder with the sign of the dividend where it has 128
bits, and throw otherwise and for a divisor that is zero; the decimal is that of the number. -/
theorem int128_operations_exact (a b : Int128) :
    (add a b).map BitVec.toInt = exact (a.toInt + b.toInt)
      ∧ (subtract a b).map BitVec.toInt = exact (a.toInt - b.toInt)
      ∧ (multiply a b).map BitVec.toInt = exact (a.toInt * b.toInt)
      ∧ (divide a b).map BitVec.toInt
        = (if b = 0 then invalidArgument "division by zero" else exact (a.toInt.tdiv b.toInt))
      ∧ (modulo a b).map BitVec.toInt
        = (if b = 0 then invalidArgument "modulo by zero" else exact (a.toInt.tmod b.toInt))
      ∧ decimal a = toString a.toInt := by
  refine ⟨add_exact a b, subtract_exact a b, multiply_exact a b, ?_, ?_, decimal_eq a⟩
  · split
    · rename_i hb
      rw [divide, if_pos hb]
      rfl
    · exact divide_exact a b ‹_›
  · split
    · rename_i hb
      rw [modulo, if_pos hb]
      rfl
    · exact modulo_exact a b ‹_›

end Int128

end ChunkDb
