/-
# Base64

`Base64Encode` and `Base64Decode` of `crypto.cpp`.  A text is the list of its characters, one
for each byte.  The decoder accepts exactly what the encoder writes: a last comparison refuses
every text whose padding hides bits.
-/
import ChunkDb.Basic

namespace ChunkDb

open List Option

/-! ## The model -/

def kBase64Alphabet : List Char :=
  "ABCDEFGHIJKLMNOPQRSTUVWXYZabcdefghijklmnopqrstuvwxyz0123456789+/".toList

/-- `kBase64Alphabet[digit]`. -/
def base64Char (digit : ℕ) : Char := kBase64Alphabet.getD digit '='

/-- One round of the loop of `Base64Encode`; the second and third byte may be missing. -/
def base64Group (a : UInt8) (b c : Option UInt8) : List Char :=
  let chunk := a.toNat <<< 16 ||| b.elim 0 (·.toNat <<< 8) ||| c.elim 0 (·.toNat)
  [base64Char (chunk >>> 18 &&& 63), base64Char (chunk >>> 12 &&& 63),
    if b.isSome then base64Char (chunk >>> 6 &&& 63) else '=',
    if c.isSome then base64Char (chunk &&& 63) else '=']

/-- `Base64Encode`. -/
def base64Encode : Bytes → List Char
  | [] => []
  | [a] => base64Group a none none
  | [a, b] => base64Group a (some b) none
  | a :: b :: c :: data => base64Group a (some b) (some c) ++ base64Encode data

/-- The chunk and the padding that `Base64Decode` has read of a group. -/
structure Base64Group where
  chunk : ℕ
  padding : ℕ

/-- The character `j` of a group; only the last group of a text may be padded. -/
def Base64Group.read (last : Bool) (j : ℕ) (c : Char) (g : Base64Group) : Option Base64Group :=
  if c = '=' ∧ last ∧ 2 ≤ j then some ⟨g.chunk <<< 6, g.padding + 1⟩
  else
    match kBase64Alphabet.idxOf? c with
    | none => none
    | some digit => if g.padding ≠ 0 then none else some ⟨g.chunk <<< 6 ||| digit, 0⟩

/-- The bytes of a group. -/
def Base64Group.bytes (g : Base64Group) : Bytes :=
  UInt8.ofNat (g.chunk >>> 16) :: (if g.padding < 2 then [UInt8.ofNat (g.chunk >>> 8)] else [])
    ++ if g.padding < 1 then [UInt8.ofNat g.chunk] else []

/-- The loop of `Base64Decode`. -/
def base64Groups : List Char → Option Bytes
  | c₀ :: c₁ :: c₂ :: c₃ :: text => do
    let last := text.isEmpty
    let g ← Base64Group.read last 0 c₀ ⟨0, 0⟩
    let g ← g.read last 1 c₁
    let g ← g.read last 2 c₂
    let g ← g.read last 3 c₃
    return g.bytes ++ (← base64Groups text)
  | _ => some []

/-- `Base64Decode`. -/
def base64Decode (text : List Char) : Option Bytes :=
  if text.length % 4 ≠ 0 then none
  else (base64Groups text).filter fun out => base64Encode out = text

/-! ## Digits -/

theorem shiftLeft_or {digit n : ℕ} (h : digit < 2 ^ n) (chunk : ℕ) :
    chunk <<< n ||| digit = chunk * 2 ^ n + digit := by
  rw [← Nat.shiftLeft_add_eq_or_of_lt h, Nat.shiftLeft_eq]

theorem and_63 (n : ℕ) : n &&& 63 = n % 64 := Nat.and_two_pow_sub_one_eq_mod n 6

/-- A character of the alphabet is found at its place, and is not the padding. -/
theorem idxOf_base64Char (digit : Fin 64) :
    kBase64Alphabet.idxOf? (base64Char digit) = some digit.val ∧ base64Char digit ≠ '=' := by
  revert digit
  decide +kernel

/-- A place of a group holds a digit, or the padding of a last group for a digit that is zero. -/
theorem read_place (present : Bool) {last : Bool} {j chunk padding digit : ℕ}
    (hdigit : digit < 64) (hpresent : present = true → padding = 0)
    (hpadded : present = false → last = true ∧ 2 ≤ j ∧ digit = 0) :
    Base64Group.read last j (if present then base64Char digit else '=') ⟨chunk, padding⟩
      = some ⟨chunk * 64 + digit, padding + (!present).toNat⟩ := by
  cases present with
  | true =>
    obtain ⟨hfound, hne⟩ := idxOf_base64Char ⟨digit, hdigit⟩
    obtain rfl := hpresent rfl
    rw [if_pos rfl, Base64Group.read, if_neg fun hpad => hne hpad.1, hfound]
    exact congrArg (fun n => some (Base64Group.mk n 0)) (shiftLeft_or hdigit chunk)
  | false =>
    obtain ⟨rfl, hj, rfl⟩ := hpadded rfl
    exact (if_pos ⟨rfl, rfl, hj⟩).trans (congrArg (fun n => some (Base64Group.mk n _))
      (Nat.shiftLeft_eq chunk 6))

theorem read_digit {last : Bool} {j chunk digit : ℕ} (hdigit : digit < 64) :
    Base64Group.read last j (base64Char digit) ⟨chunk, 0⟩ = some ⟨chunk * 64 + digit, 0⟩ :=
  read_place true hdigit (fun _ => rfl) nofun

/-! ## Groups -/

theorem chunk_eq (a b c : UInt8) :
    a.toNat <<< 16 ||| b.toNat <<< 8 ||| c.toNat = a.toNat * 65536 + b.toNat * 256 + c.toNat := by
  have hb := b.toNat_lt
  have hshift : b.toNat <<< 8 < 2 ^ 16 := by
    rw [Nat.shiftLeft_eq]
    omega
  rw [shiftLeft_or hshift, Nat.shiftLeft_eq b.toNat 8,
    show a.toNat * 2 ^ 16 + b.toNat * 2 ^ 8 = (a.toNat * 256 + b.toNat) <<< 8 by
      rw [Nat.shiftLeft_eq]; ring, shiftLeft_or c.toNat_lt]
  ring

/-- The bytes that the digits of a chunk give back. -/
theorem ofNat_chunk (a b c : UInt8) :
    UInt8.ofNat ((a.toNat * 65536 + b.toNat * 256 + c.toNat) >>> 16) = a
      ∧ UInt8.ofNat ((a.toNat * 65536 + b.toNat * 256 + c.toNat) >>> 8) = b
      ∧ UInt8.ofNat (a.toNat * 65536 + b.toNat * 256 + c.toNat) = c := by
  have ha := a.toNat_lt
  have hb := b.toNat_lt
  have hc := c.toNat_lt
  simp only [← UInt8.toNat_inj, UInt8.toNat_ofNat', Nat.shiftRight_eq_div_pow]
  omega

/-- A group is read back: a whole one in front of any text, another one at the end. -/
theorem base64Groups_group (a : UInt8) (b c : Option UInt8) (text : List Char)
    (hb : b = none → c = none) (hc : c = none → text = []) :
    base64Groups (base64Group a b c ++ text)
      = (base64Groups text).map (a :: (b.toList ++ c.toList) ++ ·) := by
  have ha := a.toNat_lt
  have hbyte := (b.getD 0).toNat_lt
  have hlast := (c.getD 0).toNat_lt
  have hchunk : a.toNat <<< 16 ||| b.elim 0 (·.toNat <<< 8) ||| c.elim 0 (·.toNat)
      = a.toNat * 65536 + (b.getD 0).toNat * 256 + (c.getD 0).toNat := by
    rw [← chunk_eq]
    cases b <;> cases c <;> rfl
  obtain ⟨hfirst, hsecond, hthird⟩ := ofNat_chunk a (b.getD 0) (c.getD 0)
  set chunk := a.toNat * 65536 + (b.getD 0).toNat * 256 + (c.getD 0).toNat with hsum
  simp only [base64Group, hchunk, and_63, Nat.shiftRight_eq_div_pow, cons_append, nil_append,
    base64Groups, read_digit (Nat.mod_lt _ (by decide : 64 > 0)), bind_eq_bind, bind_some]
  have hdigits : (((0 * 64 + chunk / 2 ^ 18 % 64) * 64 + chunk / 2 ^ 12 % 64) * 64
      + chunk / 2 ^ 6 % 64) * 64 + chunk % 64 = chunk := by omega
  have hnone {o : Option UInt8} (h : o.isSome = false) : o = none ∧ (o.getD 0).toNat = 0 := by
    cases o with
    | none => exact ⟨rfl, rfl⟩
    | some byte => cases h
  rw [read_place b.isSome (by omega) (fun _ => rfl) fun h => ?_, bind_some,
    read_place c.isSome (by omega) ?_ fun h => ?_, bind_some, hdigits, Base64Group.bytes,
    hfirst, hsecond, hthird]
  · cases b with
    | none =>
      rw [hb rfl, hc (hb rfl)]
      rfl
    | some b => cases c <;> cases base64Groups text <;> rfl
  · cases b with
    | none => exact fun h => by simp [hb rfl] at h
    | some b => exact fun _ => rfl
  · have hzero := (hnone h).2
    rw [hc (hnone h).1]
    exact ⟨rfl, by decide, by omega⟩
  · have hzero := (hnone h).2
    have hnext : (c.getD 0).toNat = 0 := by rw [hb (hnone h).1]; rfl
    rw [hc (hb (hnone h).1)]
    exact ⟨rfl, le_rfl, by omega⟩

theorem base64Groups_encode (data : Bytes) : base64Groups (base64Encode data) = some data := by
  fun_induction base64Encode data with
  | case1 => rfl
  | case2 a =>
    have h := base64Groups_group a none none [] (fun _ => rfl) fun _ => rfl
    rwa [append_nil] at h
  | case3 a b =>
    have h := base64Groups_group a (some b) none [] nofun fun _ => rfl
    rwa [append_nil] at h
  | case4 a b c data ih =>
    rw [base64Groups_group a (some b) (some c) _ nofun nofun, ih]
    rfl

theorem length_base64Group (a : UInt8) (b c : Option UInt8) : (base64Group a b c).length = 4 := rfl

theorem length_base64Encode (data : Bytes) : (base64Encode data).length % 4 = 0 := by
  fun_induction base64Encode data with
  | case1 => rfl
  | case2 a => rw [length_base64Group]
  | case3 a b => rw [length_base64Group]
  | case4 a b c data ih =>
    rw [length_append, length_base64Group]
    omega

/-- The decoder returns bytes exactly for the text that the encoder writes of them, and so for
no other; a text that is not the encoding of any bytes is refused. -/
theorem base64Decode_eq_some_iff (text : List Char) :
    (∀ data, base64Decode text = some data ↔ text = base64Encode data)
      ∧ (base64Decode text = none ↔ ∀ data, text ≠ base64Encode data) := by
  have hiff (data : Bytes) : base64Decode text = some data ↔ text = base64Encode data := by
    constructor
    · intro h
      unfold base64Decode at h
      split at h
      · cases h
      · exact (of_decide_eq_true (filter_eq_some_iff.mp h).2).symm
    · rintro rfl
      rw [base64Decode, if_neg (not_not.mpr (length_base64Encode data)), base64Groups_encode]
      exact filter_some_pos (decide_eq_true rfl)
  refine ⟨hiff, eq_none_iff_forall_ne_some.trans (forall_congr' fun data => ?_)⟩
  exact not_congr (hiff data)

end ChunkDb
