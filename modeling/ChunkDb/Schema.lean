/-
# Columns

What one block of a table holds (`schema.hpp`, `schema.cpp`): column kinds and
types, columns with their defaults, and the rules a single column must keep.
Text is checked with `isUtf8`, translated from the source's decoder; a text cut
where no character is split stays valid (`isUtf8_take_iff`).
-/
import ChunkDb.Basic

open List

namespace ChunkDb

/-- `ColumnKind`. -/
inductive ColumnKind
  | unsigned
  | signed
  | bool
  | float32
  | float64
  | bits
  | text
  | bytes
  deriving DecidableEq, Repr

/-- `ColumnType`: for a fixed-width kind `size` is the bits of a value, for text and
bytes the most bytes of one. -/
structure ColumnType where
  kind : ColumnKind
  size : ℕ
  deriving DecidableEq, Repr

/-- `Column`. -/
structure Column where
  id : UInt32
  name : String
  type : ColumnType
  nullable : Bool
  required : Bool
  hasDefault : Bool
  defaultValue : Bytes
  deriving DecidableEq, Repr

def kMaxColumnsPerTable : ℕ := 1024
def kMaxColumnNameBytes : ℕ := 63
def kMaxFixedBitsPerBlock : ℕ := 65535
def kMaxVariableValueBytes : ℕ := 16 * 1024 * 1024
def kMaxSchemaVersions : ℕ := 65535

/-- `IsFixedWidth`. -/
def isFixedWidth (kind : ColumnKind) : Bool := kind != .text && kind != .bytes

/-- `FixedWidthBits`. -/
def fixedWidthBits (type : ColumnType) : ℕ := if isFixedWidth type.kind then type.size else 0

/-- `ColumnTypeName`. -/
def columnTypeName (type : ColumnType) : String :=
  let size := toString type.size
  match type.kind with
  | .unsigned => "u" ++ size
  | .signed => "i" ++ size
  | .bool => "bool"
  | .float32 => "f32"
  | .float64 => "f64"
  | .bits => "bits(" ++ size ++ ")"
  | .text => "text(" ++ size ++ ")"
  | .bytes => "bytes(" ++ size ++ ")"

/-! ## UTF-8 -/

/-- A byte that continues a character. -/
def isContinuation (b : UInt8) : Bool := b &&& 0xC0 == 0x80

/-- The bytes of a character that starts with `lead`, with the bits of its code
point `lead` holds. -/
def utf8Lead (lead : UInt8) : Option (ℕ × ℕ) :=
  if lead < 0x80 then some (1, lead.toNat)
  else if 0xC2 ≤ lead ∧ lead ≤ 0xDF then some (2, (lead &&& 0x1F).toNat)
  else if 0xE0 ≤ lead ∧ lead ≤ 0xEF then some (3, (lead &&& 0x0F).toNat)
  else if 0xF0 ≤ lead ∧ lead ≤ 0xF4 then some (4, (lead &&& 0x07).toNat)
  else none

/-- The rest of a character of `length` bytes: only continuations, and a code point
that needs so many bytes and is a scalar value. -/
def utf8TailValid (length code : ℕ) (tail : Bytes) : Bool :=
  let code := tail.foldl (fun code next => code <<< 6 ||| (next &&& 0x3F).toNat) code
  tail.all isContinuation
    && !((length == 3 && (code < 0x800 || (0xD800 ≤ code && code ≤ 0xDFFF)))
      || (length == 4 && (code < 0x10000 || 0x10FFFF < code)))

/-- The loop of `IsUtf8`, which takes one character per round. -/
def isUtf8Loop : ℕ → Bytes → Bool
  | _, [] => true
  | 0, _ :: _ => false
  | fuel + 1, lead :: rest =>
    match utf8Lead lead with
    | none => false
    | some (length, code) =>
      if rest.length + 1 < length then false
      else if utf8TailValid length code (rest.take (length - 1)) then
        isUtf8Loop fuel (rest.drop (length - 1))
      else false

/-- `IsUtf8`: no overlong forms, no surrogates, at most U+10FFFF. -/
def isUtf8 (bytes : Bytes) : Bool := isUtf8Loop bytes.length bytes

/-- Rounds beyond one per byte change nothing. -/
theorem isUtf8Loop_of_le (fuel : ℕ) (bs : Bytes) (h : bs.length ≤ fuel) :
    isUtf8Loop fuel bs = isUtf8 bs := by
  have hmono : ∀ (n m : ℕ) (cs : Bytes), cs.length ≤ n → cs.length ≤ m →
      isUtf8Loop n cs = isUtf8Loop m cs := by
    intro n
    induction n with
    | zero =>
      intro m cs hn _
      rw [eq_nil_of_length_eq_zero (Nat.le_zero.mp hn)]
      cases m <;> rfl
    | succ n ih =>
      intro m cs hn hm
      cases cs with
      | nil => cases m <;> rfl
      | cons lead rest =>
        obtain ⟨m, rfl⟩ : ∃ m', m = m' + 1 := ⟨m - 1, by simp at hm; omega⟩
        rw [isUtf8Loop, isUtf8Loop]
        cases utf8Lead lead with
        | none => rfl
        | some lc =>
          simp only [length_cons] at hn hm
          dsimp only
          rw [ih m _ (by rw [length_drop]; omega) (by rw [length_drop]; omega)]
  exact hmono fuel bs.length bs h le_rfl

/-- A valid text is a character and a valid text. -/
theorem isUtf8_cons (lead : UInt8) (rest : Bytes) :
    isUtf8 (lead :: rest) = true ↔
      ∃ length code, utf8Lead lead = some (length, code) ∧ length ≤ rest.length + 1
        ∧ utf8TailValid length code (rest.take (length - 1)) = true
        ∧ isUtf8 (rest.drop (length - 1)) = true := by
  rw [isUtf8, length_cons, isUtf8Loop]
  cases hlead : utf8Lead lead with
  | none => simp
  | some lc =>
    obtain ⟨length, code⟩ := lc
    dsimp only
    rw [isUtf8Loop_of_le _ _ (by rw [length_drop]; omega)]
    simp only [Option.some.injEq, Prod.mk.injEq]
    constructor
    · intro h
      split at h
      · simp at h
      · split at h
        · exact ⟨length, code, ⟨rfl, rfl⟩, by omega, ‹_›, h⟩
        · simp at h
    · rintro ⟨_, _, ⟨rfl, rfl⟩, hlen, hvalid, hrest⟩
      rw [if_neg (by omega), if_pos hvalid]
      exact hrest

theorem isContinuation_of_utf8Lead {lead : UInt8} {character : ℕ × ℕ}
    (h : utf8Lead lead = some character) : isContinuation lead = false := by
  have hall : ∀ n < 256, utf8Lead (UInt8.ofNat n) ≠ none →
      isContinuation (UInt8.ofNat n) = false := by decide +kernel
  have hlead := hall lead.toNat lead.toNat_lt
  rw [UInt8.ofNat_toNat, h] at hlead
  exact hlead (by simp)

/-- The start of a valid text is valid when it ends in front of a byte that starts a character. -/
theorem isUtf8_take_iff (bs : Bytes) (k : ℕ) (h : isUtf8 bs = true) :
    isUtf8 (bs.take k) = true ↔ ∀ b, bs[k]? = some b → isContinuation b = false := by
  induction hn : bs.length using Nat.strong_induction_on generalizing bs k with
  | _ n ih =>
    subst hn
    cases bs with
    | nil => exact iff_of_true (by rw [take_nil]; rfl) (by simp)
    | cons lead rest =>
      obtain ⟨length, code, hlead, hlen, hvalid, hrest⟩ := (isUtf8_cons lead rest).mp h
      cases k with
      | zero =>
        refine iff_of_true rfl ?_
        rintro b hb
        cases hb
        exact isContinuation_of_utf8Lead hlead
      | succ k =>
        rw [getElem?_cons_succ, take_succ_cons, isUtf8_cons]
        by_cases hk : length - 1 ≤ k
        · -- the first character is kept whole
          have hstart := ih _ (by rw [length_drop, length_cons]; omega)
            (rest.drop (length - 1)) (k - (length - 1)) hrest rfl
          rw [getElem?_drop, Nat.add_sub_cancel' hk, ← drop_take] at hstart
          rw [← hstart]
          constructor
          · rintro ⟨_, _, hlead', -, -, hrest'⟩
            obtain ⟨rfl, rfl⟩ := Prod.mk.inj (Option.some.inj (hlead.symm.trans hlead'))
            exact hrest'
          · intro hrest'
            refine ⟨length, code, hlead, ?_, ?_, hrest'⟩
            · rw [length_take]
              omega
            · rwa [take_take, Nat.min_eq_left hk]
        · -- the cut is inside it, in front of a continuation
          have hlt : k < rest.length := by omega
          have hmem : rest[k] ∈ rest.take (length - 1) := by
            rw [mem_take_iff_getElem]
            exact ⟨k, by omega, rfl⟩
          have hcont : isContinuation rest[k] = true := by
            unfold utf8TailValid at hvalid
            simp only [Bool.and_eq_true, all_eq_true] at hvalid
            exact hvalid.1 _ hmem
          refine iff_of_false ?_ ?_
          · rintro ⟨_, _, hlead', hshort, -⟩
            obtain ⟨rfl, rfl⟩ := Prod.mk.inj (Option.some.inj (hlead.symm.trans hlead'))
            rw [length_take] at hshort
            omega
          · intro hcut
            rw [hcut rest[k] (getElem?_eq_getElem hlt)] at hcont
            simp at hcont

/-! ## The rules for one column -/

/-- `IsValidName`. -/
def isValidName (name : String) : Bool :=
  let lowerOrUnderscore := fun c : Char => ('a' ≤ c && c ≤ 'z') || c == '_'
  match name.toList with
  | [] => false
  | first :: rest =>
    decide (rest.length + 1 ≤ kMaxColumnNameBytes) && lowerOrUnderscore first
      && (first :: rest).all (fun c => lowerOrUnderscore c || ('0' ≤ c && c ≤ '9'))

/-- The sizes a kind takes, and the rule `ValidateColumnType` names when it is broken. -/
def columnTypeRule : ColumnKind → (ℕ × ℕ) × String
  | .unsigned => ((1, 64), "uN takes N from 1 to 64")
  | .signed => ((2, 64), "iN takes N from 2 to 64")
  | .bool => ((1, 1), "bool is 1 bit")
  | .float32 => ((32, 32), "f32 is 32 bits")
  | .float64 => ((64, 64), "f64 is 64 bits")
  | .bits => ((1, kMaxFixedBitsPerBlock),
      "bits(N) takes N from 1 to " ++ toString kMaxFixedBitsPerBlock)
  | .text => ((1, kMaxVariableValueBytes),
      "text(max) takes max from 1 to " ++ toString kMaxVariableValueBytes)
  | .bytes => ((1, kMaxVariableValueBytes),
      "bytes(max) takes max from 1 to " ++ toString kMaxVariableValueBytes)

/-- The size of the type is one its kind takes. -/
def ColumnType.Valid (type : ColumnType) : Prop :=
  (columnTypeRule type.kind).1.1 ≤ type.size ∧ type.size ≤ (columnTypeRule type.kind).1.2

instance (type : ColumnType) : Decidable type.Valid := by
  unfold ColumnType.Valid
  infer_instance

/-- `ValidateColumnType`. -/
def validateColumnType (column : Column) : Fallible Unit :=
  require column.type.Valid
    ⟨.invalidArgument, "column " ++ column.name ++ ": " ++ (columnTypeRule column.type.kind).2⟩

/-- `ValidateDefault`. -/
def validateDefault (column : Column) : Fallible Unit :=
  if column.hasDefault = false then
    require (column.defaultValue = [])
      ⟨.invalidArgument, "column " ++ column.name ++ ": a default value without DEFAULT"⟩
  else if isFixedWidth column.type.kind then do
    let bits := fixedWidthBits column.type
    require (column.defaultValue.length = bytesForBits bits)
      ⟨.invalidArgument, "column " ++ column.name ++ ": a default of " ++ columnTypeName column.type
        ++ " takes " ++ toString (bytesForBits bits) ++ " bytes"⟩
    require (¬ (bits % 8 ≠ 0 ∧ column.defaultValue.getLastD 0 >>> UInt8.ofNat (bits % 8) ≠ 0))
      ⟨.invalidArgument, "column " ++ column.name ++ ": the default has bits past the type's width"⟩
  else do
    require (column.defaultValue.length ≤ column.type.size)
      ⟨.invalidArgument,
        "column " ++ column.name ++ ": the default is longer than " ++ columnTypeName column.type⟩
    require (¬ (column.type.kind = .text ∧ isUtf8 column.defaultValue = false))
      ⟨.invalidArgument, "column " ++ column.name ++ ": the default is not UTF-8"⟩

theorem ColumnType.Valid.size_pos {type : ColumnType} (h : type.Valid) : 0 < type.size := by
  obtain ⟨hlow, _⟩ := h
  have : 1 ≤ (columnTypeRule type.kind).1.1 := by cases type.kind <;> decide
  omega

/-- A column of a valid type takes fixed bits exactly when its kind is fixed-width. -/
theorem fixedWidthBits_eq_zero_iff {type : ColumnType} (h : type.Valid) :
    fixedWidthBits type = 0 ↔ isFixedWidth type.kind = false := by
  have hpos := h.size_pos
  unfold fixedWidthBits
  split <;> simp_all
  omega

end ChunkDb
