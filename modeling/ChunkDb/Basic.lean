/-
# Bytes and exceptions

What every module of the model shares: byte strings, and the exceptions the C++
code throws.  An exception keeps its class, since some callers catch one class
only, and its message.
-/
import ChunkDb.Lib.LittleEndian
import ChunkDb.Lib.ByteBits

open LittleEndian ByteBits

namespace ChunkDb

/-- `std::vector<std::uint8_t>`. -/
abbrev Bytes := List UInt8

/-- The exception classes of the standard library that the code throws. -/
inductive ExnKind
  | invalidArgument
  | logicError
  | lengthError
  | runtimeError
  | outOfRange
  deriving DecidableEq, Repr

/-- A thrown exception: its class and `what()`. -/
structure Exn where
  kind : ExnKind
  what : String
  deriving DecidableEq, Repr

/-- The result of code that may throw. -/
abbrev Fallible := Except Exn

def invalidArgument {A : Type*} (what : String) : Fallible A := .error ⟨.invalidArgument, what⟩

def logicError {A : Type*} (what : String) : Fallible A := .error ⟨.logicError, what⟩

def runtimeError {A : Type*} (what : String) : Fallible A := .error ⟨.runtimeError, what⟩

/-- Throws unless the check holds. -/
def require (check : Prop) [Decidable check] (e : Exn) : Fallible Unit :=
  if check then .ok () else .error e

@[simp] theorem require_eq_ok (check : Prop) [Decidable check] (e : Exn) :
    require check e = .ok () ↔ check := by
  unfold require
  split <;> simp [*]

theorem require_of {check : Prop} [Decidable check] (h : check) (e : Exn) :
    require check e = .ok () := if_pos h

@[simp] theorem ok_bind {A B : Type} (a : A) (f : A → Fallible B) :
    ((.ok a : Fallible A) >>= f) = f a := rfl

@[simp] theorem Fallible.error_bind {A B : Type} (e : Exn) (f : A → Fallible B) :
    ((.error e : Fallible A) >>= f) = .error e := rfl

theorem Fallible.map_map {A B C : Type} (f : A → B) (g : B → C) (x : Fallible A) :
    (x.map f).map g = x.map (g ∘ f) := by
  cases x <;> rfl

theorem Fallible.map_eq_ok {A B : Type} {x : Fallible A} {f : A → B} {b : B}
    (h : x.map f = .ok b) : ∃ a, x = .ok a ∧ f a = b := by
  cases x with
  | error exn => exact nomatch h
  | ok a => exact ⟨a, rfl, Except.ok.inj h⟩

/-- A sequence succeeds when both parts do. -/
theorem bind_eq_ok {A B : Type} {x : Fallible A} {f : A → Fallible B} {b : B} :
    (x >>= f) = .ok b ↔ ∃ a, x = .ok a ∧ f a = .ok b := by
  cases x <;> simp [bind, Except.bind]

theorem check_bind_eq_ok {B : Type} {x : Fallible Unit} {f : Unit → Fallible B} {b : B} :
    (x >>= f) = .ok b ↔ x = .ok () ∧ f () = .ok b := by
  rw [bind_eq_ok]
  exact ⟨fun ⟨(), hx, hf⟩ => ⟨hx, hf⟩, fun h => ⟨(), h⟩⟩

@[simp] theorem require_bind {B : Type} {check : Prop} [Decidable check] {e : Exn}
    {f : Unit → Fallible B} {b : B} : (require check e >>= f) = .ok b ↔ check ∧ f () = .ok b := by
  rw [check_bind_eq_ok, require_eq_ok]

/-- A loop of checks, which stops at the first that throws. -/
def checkAll {A : Type} (check : A → Fallible Unit) : List A → Fallible Unit
  | [] => .ok ()
  | a :: l => do
    check a
    checkAll check l

@[simp] theorem checkAll_eq_ok {A : Type} {check : A → Fallible Unit} {l : List A} :
    checkAll check l = .ok () ↔ ∀ a ∈ l, check a = .ok () := by
  induction l with
  | nil => simp [checkAll]
  | cons a l ih => rw [checkAll, check_bind_eq_ok, ih, List.forall_mem_cons]

/-- The bits of a little-endian number are those of its bytes, in order. -/
theorem testBit_leNat (bs : Bytes) (i : ℕ) : (leNat bs).testBit i = getBit bs i := by
  induction bs generalizing i with
  | nil => simp [leNat, getBit]
  | cons b bs ih =>
    have hb := b.toNat_lt
    rw [leNat, Nat.add_comm, show (256 : ℕ) = 2 ^ 8 by norm_num,
      Nat.testBit_two_pow_mul_add _ (by simpa using hb)]
    by_cases hi : i < 8
    · rw [if_pos hi, getBit, Nat.div_eq_of_lt hi, Nat.mod_eq_of_lt hi, List.getD_cons_zero]
    · obtain ⟨j, rfl⟩ : ∃ j, i = 8 + j := ⟨i - 8, by omega⟩
      rw [if_neg hi, Nat.add_sub_cancel_left, ih]
      exact (getBit_append_right [b] bs j).symm

/-- `(bits + 7) / 8`, the bytes that hold so many bits. -/
def bytesForBits (bits : ℕ) : ℕ := (bits + 7) / 8

theorem le_bytesForBits (bits : ℕ) : bits ≤ 8 * bytesForBits bits := by
  unfold bytesForBits
  omega

end ChunkDb
