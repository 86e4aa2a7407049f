/-
# A reflected shift register and the bursts it detects

The register of a cyclic redundancy check in reflected form: bits enter at the
low end, and the register is reduced by a polynomial whose top bit is set.

* `lfsrStep` shifts in one bit, `lfsrRun` a whole bit string.
* `lfsrStep_injective`: for a fixed input bit a step loses nothing, so a register
  difference never disappears while equal bits follow.
* `lfsrRun_of_spelled`: a register is driven to zero by its own bits.  A stored
  checksum is that bit string, so the run of a checked message ends in zero.
* `lfsrRun_burst`: two bit strings that differ only in a window no wider than the
  register cannot both be driven to zero.
-/
import Mathlib.Data.List.GetD
import Mathlib.Tactic

namespace Lfsr

open List

variable {w : ℕ}

/-- One step of the register `s`: shift towards the low end, reducing by `poly`
when the bit that leaves differs from the input bit `b`. -/
def lfsrStep (poly s : BitVec w) (b : Bool) : BitVec w :=
  (s >>> 1) ^^^ (if (s.getLsbD 0 ^^ b) then poly else 0#w)

/-- The register after a bit string. -/
def lfsrRun (poly : BitVec w) (s : BitVec w) (bits : List Bool) : BitVec w :=
  bits.foldl (lfsrStep poly) s

variable (poly s : BitVec w)

@[simp] theorem lfsrRun_nil : lfsrRun poly s [] = s := rfl

@[simp] theorem lfsrRun_cons (b : Bool) (bits : List Bool) :
    lfsrRun poly s (b :: bits) = lfsrRun poly (lfsrStep poly s b) bits := rfl

theorem lfsrRun_append (xs ys : List Bool) :
    lfsrRun poly s (xs ++ ys) = lfsrRun poly (lfsrRun poly s xs) ys := foldl_append

/-- The bits of a step: the next higher bit, flipped where the polynomial says so. -/
theorem getLsbD_lfsrStep (b : Bool) (i : ℕ) :
    (lfsrStep poly s b).getLsbD i
      = (s.getLsbD (1 + i) ^^ ((s.getLsbD 0 ^^ b) && poly.getLsbD i)) := by
  unfold lfsrStep
  rw [BitVec.getLsbD_xor, BitVec.getLsbD_ushiftRight]
  cases s.getLsbD 0 ^^ b <;> simp

/-- The register is linear: steps of a difference are differences of steps. -/
theorem lfsrStep_xor (poly s t : BitVec w) (a b : Bool) :
    lfsrStep poly (s ^^^ t) (a ^^ b) = lfsrStep poly s a ^^^ lfsrStep poly t b := by
  apply BitVec.eq_of_getLsbD_eq
  intro i _
  rw [BitVec.getLsbD_xor, getLsbD_lfsrStep, getLsbD_lfsrStep, getLsbD_lfsrStep,
    BitVec.getLsbD_xor, BitVec.getLsbD_xor]
  cases s.getLsbD 0 <;> cases t.getLsbD 0 <;> cases a <;> cases b <;> cases poly.getLsbD i <;>
    cases s.getLsbD (1 + i) <;> cases t.getLsbD (1 + i) <;> rfl

theorem lfsrRun_xor (poly s t : BitVec w) (xs ys : List Bool) (h : xs.length = ys.length) :
    lfsrRun poly (s ^^^ t) (List.zipWith xor xs ys) = lfsrRun poly s xs ^^^ lfsrRun poly t ys := by
  induction xs generalizing s t ys with
  | nil =>
    rw [eq_nil_of_length_eq_zero h.symm]
    rfl
  | cons a xs ih =>
    cases ys with
    | nil => simp at h
    | cons b ys =>
      rw [zipWith_cons_cons, lfsrRun_cons, lfsrRun_cons, lfsrRun_cons, lfsrStep_xor,
        ih _ _ _ (by simpa using h)]

/-- The register's own bits drive it to zero, one shift at a time. -/
theorem lfsrRun_of_spelled (poly t : BitVec w) (bits : List Bool)
    (h : ∀ i, t.getLsbD i = bits.getD i false) : lfsrRun poly t bits = 0#w := by
  induction bits generalizing t with
  | nil =>
    apply BitVec.eq_of_getLsbD_eq
    intro i _
    rw [lfsrRun_nil, h i]
    simp
  | cons b bits ih =>
    rw [lfsrRun_cons]
    apply ih
    intro i
    have h0 : (t.getLsbD 0 ^^ b) = false := by simp [h 0]
    rw [getLsbD_lfsrStep, h0, h (1 + i), Nat.add_comm 1 i]
    simp

/-- Shifting bits in is adding them to the low end first and shifting in zeros. -/
theorem lfsrRun_eq_zeros (poly s t : BitVec w) (bits : List Bool)
    (h : ∀ i, t.getLsbD i = bits.getD i false) :
    lfsrRun poly s bits = lfsrRun poly (s ^^^ t) (List.replicate bits.length false) := by
  have hself : List.zipWith xor bits bits = List.replicate bits.length false := by
    rw [zipWith_self]
    simp [map_const']
  have hx := lfsrRun_xor poly s t bits bits rfl
  rw [lfsrRun_of_spelled poly t bits h, BitVec.xor_zero, hself] at hx
  exact hx.symm

/-- A register whose low bits are clear is only shifted. -/
theorem lfsrRun_zeros_of_low_clear (k : ℕ)
    (h : ∀ i < k, s.getLsbD i = false) :
    lfsrRun poly s (List.replicate k false) = s >>> k := by
  induction k generalizing s with
  | zero => simp
  | succ k ih =>
    have hstep : lfsrStep poly s false = s >>> 1 := by
      unfold lfsrStep
      simp [h 0 (by omega)]
    rw [replicate_succ, lfsrRun_cons, hstep, ih]
    · rw [← BitVec.shiftRight_add, Nat.add_comm]
    · intro i hi
      rw [BitVec.getLsbD_ushiftRight]
      exact h (1 + i) (by omega)

/-! ## Registers whose polynomial has its top bit -/

section TopBit

variable {poly : BitVec w} (hpoly : poly.getLsbD (w - 1) = true)
include hpoly

/-- The top bit after a step tells which bit left the register. -/
theorem getLsbD_top_lfsrStep (s : BitVec w) (b : Bool) :
    (lfsrStep poly s b).getLsbD (w - 1) = (s.getLsbD 0 ^^ b) := by
  rw [getLsbD_lfsrStep, hpoly, BitVec.getLsbD_of_ge s (1 + (w - 1)) (by omega)]
  simp

/-- A step can be undone when its input bit is known. -/
theorem lfsrStep_injective (s t : BitVec w) (b : Bool)
    (h : lfsrStep poly s b = lfsrStep poly t b) : s = t := by
  have hlow : s.getLsbD 0 = t.getLsbD 0 := by
    have htop := congrArg (fun x => x.getLsbD (w - 1)) h
    simp only [getLsbD_top_lfsrStep hpoly] at htop
    simpa using htop
  apply BitVec.eq_of_getLsbD_eq
  intro i _
  cases i with
  | zero => exact hlow
  | succ i =>
    have hi := congrArg (fun x => x.getLsbD i) h
    simp only [getLsbD_lfsrStep, hlow] at hi
    rw [Nat.add_comm 1 i] at hi
    simpa using hi

theorem lfsrRun_injective (s t : BitVec w) (bits : List Bool)
    (h : lfsrRun poly s bits = lfsrRun poly t bits) : s = t := by
  induction bits generalizing s t with
  | nil => exact h
  | cons b bits ih => exact lfsrStep_injective hpoly s t b (ih _ _ h)

/-- A bit string no longer than the register that drives it to zero spells the
register's bits. -/
theorem getLsbD_of_lfsrRun_eq_zero (s : BitVec w) (bits : List Bool) (hlen : bits.length ≤ w)
    (h : lfsrRun poly s bits = 0#w) (i : ℕ) : s.getLsbD i = bits.getD i false := by
  induction bits generalizing s i with
  | nil =>
    rw [lfsrRun_nil] at h
    simp [h]
  | cons b bits ih =>
    have hw : bits.length + 1 ≤ w := by simpa using hlen
    have hstep := ih (lfsrStep poly s b) (by omega) h
    -- no bit is left to reach the top, so the step did not reduce
    have hlow : (s.getLsbD 0 ^^ b) = false := by
      rw [← getLsbD_top_lfsrStep hpoly s b, hstep, getD_eq_default _ _ (by omega)]
    cases i with
    | zero => simpa using hlow
    | succ i =>
      have hi := hstep i
      rw [getLsbD_lfsrStep, hlow, Nat.add_comm 1 i] at hi
      simpa using hi

/-- **Burst detection.**  Bit strings that differ only in a window no wider than
the register are not both driven to zero from one register. -/
theorem lfsrRun_burst (s : BitVec w) (p x y q : List Bool) (hxy : x.length = y.length)
    (hlen : x.length ≤ w) (hx : lfsrRun poly s (p ++ x ++ q) = 0#w)
    (hy : lfsrRun poly s (p ++ y ++ q) = 0#w) : x = y := by
  rw [lfsrRun_append, lfsrRun_append] at hx hy
  have heq : lfsrRun poly (lfsrRun poly s p) x = lfsrRun poly (lfsrRun poly s p) y :=
    lfsrRun_injective hpoly _ _ q (hx.trans hy.symm)
  have hzero : lfsrRun poly 0#w (List.zipWith xor x y) = 0#w := by
    have hx := lfsrRun_xor poly (lfsrRun poly s p) (lfsrRun poly s p) x y hxy
    rwa [heq, BitVec.xor_self, BitVec.xor_self] at hx
  have hbits := getLsbD_of_lfsrRun_eq_zero hpoly 0#w _ (by simp [hxy] at hlen ⊢; omega) hzero
  apply ext_getElem hxy
  intro i hi hi'
  have hz : i < (List.zipWith xor x y).length := by simp; omega
  have hbit := hbits i
  rw [getD_eq_getElem _ _ hz, getElem_zipWith] at hbit
  simpa using hbit.symm

end TopBit

end Lfsr
