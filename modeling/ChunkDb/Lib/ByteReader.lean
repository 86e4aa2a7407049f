/-
# Reading bytes in order

A reader takes fields off the front of a byte string and throws when too few bytes are
left.  Each field lemma is an equivalence: what a reader accepts is the field's bytes
followed by what it leaves.
-/
import ChunkDb.Lib.LittleEndian

open LittleEndian List

/-- A reader: what it reads, and the bytes it leaves. -/
abbrev ByteReader (E A : Type) := StateT (List UInt8) (Except E) A

namespace ByteReader

variable {E A B : Type}

/-- The next `n` bytes. -/
def take (n : ℕ) (truncated : E) : ByteReader E (List UInt8) := fun bytes =>
  if bytes.length < n then .error truncated else .ok (bytes.take n, bytes.drop n)

/-- The next `n` bytes as a little-endian number. -/
def le (n : ℕ) (truncated : E) : ByteReader E ℕ := fun bytes =>
  if bytes.length < n then .error truncated else .ok (leNat (bytes.take n), bytes.drop n)

/-- A computation that reads nothing. -/
def lift (x : Except E A) : ByteReader E A := fun bytes => x.map fun a => (a, bytes)

/-- A check. -/
def check (x : Except E Unit) : ByteReader E Unit := lift x

/-- Whether everything has been read. -/
def atEnd : ByteReader E Bool := fun bytes => .ok (bytes.isEmpty, bytes)

/-- The same field `n` times. -/
def times (r : ByteReader E A) : ℕ → ByteReader E (List A)
  | 0 => pure []
  | n + 1 => do
    let a ← r
    let rest ← times r n
    return a :: rest

@[simp] theorem bind_eq_ok {r : ByteReader E A} {f : A → ByteReader E B} {bytes rest : List UInt8}
    {b : B} : (r >>= f) bytes = .ok (b, rest) ↔
      ∃ a mid, r bytes = .ok (a, mid) ∧ f a mid = .ok (b, rest) := by
  change (r bytes >>= fun p => f p.1 p.2) = .ok (b, rest) ↔ _
  cases h : r bytes with
  | error e => simp [bind, Except.bind]
  | ok p => exact ⟨fun hf => ⟨p.1, p.2, rfl, hf⟩, fun ⟨a, mid, hp, hf⟩ => by cases hp; exact hf⟩

@[simp] theorem pure_eq_ok {a b : A} {bytes rest : List UInt8} :
    (pure a : ByteReader E A) bytes = .ok (b, rest) ↔ a = b ∧ bytes = rest := by
  change Except.ok (a, bytes) = .ok (b, rest) ↔ _
  simp

@[simp] theorem lift_eq_ok {x : Except E A} {a : A} {bytes rest : List UInt8} :
    lift x bytes = .ok (a, rest) ↔ x = .ok a ∧ bytes = rest := by
  cases x <;> simp [lift, Except.map]

@[simp] theorem check_eq_ok {x : Except E Unit} {u : Unit} {bytes rest : List UInt8} :
    check x bytes = .ok (u, rest) ↔ x = .ok () ∧ bytes = rest :=
  lift_eq_ok

@[simp] theorem atEnd_eq_ok {b : Bool} {bytes rest : List UInt8} :
    (atEnd : ByteReader E Bool) bytes = .ok (b, rest) ↔ bytes.isEmpty = b ∧ bytes = rest := by
  simp [atEnd]

theorem take_eq_ok {n : ℕ} {e : E} {bytes out rest : List UInt8} :
    take n e bytes = .ok (out, rest) ↔ out.length = n ∧ bytes = out ++ rest := by
  unfold take
  split
  · next h =>
    refine ⟨nofun, ?_⟩
    rintro ⟨hlen, rfl⟩
    rw [length_append] at h
    omega
  · next h =>
    rw [Except.ok.injEq, Prod.mk.injEq]
    constructor
    · rintro ⟨rfl, rfl⟩
      exact ⟨by rw [length_take]; omega, (take_append_drop n bytes).symm⟩
    · rintro ⟨rfl, rfl⟩
      exact ⟨take_left .., drop_left ..⟩

theorem le_eq_ok {n v : ℕ} {e : E} {bytes rest : List UInt8} :
    le n e bytes = .ok (v, rest) ↔ v < 256 ^ n ∧ bytes = leBytes n v ++ rest := by
  unfold le
  split
  · next h =>
    refine ⟨nofun, ?_⟩
    rintro ⟨-, rfl⟩
    rw [length_append, length_leBytes] at h
    omega
  · next h =>
    have hlen : (bytes.take n).length = n := by rw [length_take]; omega
    rw [Except.ok.injEq, Prod.mk.injEq]
    constructor
    · rintro ⟨rfl, rfl⟩
      have hlt := leNat_lt (bytes.take n)
      have hbytes := leBytes_leNat (bytes.take n)
      rw [hlen] at hlt hbytes
      exact ⟨hlt, by rw [hbytes, take_append_drop]⟩
    · rintro ⟨hlt, rfl⟩
      rw [take_left' (length_leBytes n v), drop_left' (length_leBytes n v)]
      exact ⟨leNat_leBytes_of_lt n v hlt, rfl⟩

/-- A reader that succeeds hands on what it leaves. -/
theorem bind_of_eq_ok {r : ByteReader E A} {bytes mid : List UInt8} {a : A}
    (h : r bytes = .ok (a, mid)) (f : A → ByteReader E B) : (r >>= f) bytes = f a mid := by
  change (r bytes >>= fun p => f p.1 p.2) = _
  rw [h]
  rfl

theorem le_leBytes {n v : ℕ} (hv : v < 256 ^ n) (e : E) (rest : List UInt8) :
    le n e (leBytes n v ++ rest) = .ok (v, rest) :=
  le_eq_ok.mpr ⟨hv, rfl⟩

theorem take_append {n : ℕ} {bytes : List UInt8} (hn : bytes.length = n) (e : E)
    (rest : List UInt8) : take n e (bytes ++ rest) = .ok (bytes, rest) :=
  take_eq_ok.mpr ⟨hn, rfl⟩

/-! How a sequence of readers takes the field in front. -/

theorem le_bind {n v : ℕ} (hv : v < 256 ^ n) {e : E} {f : ℕ → ByteReader E B}
    {rest : List UInt8} : (le n e >>= f) (leBytes n v ++ rest) = f v rest :=
  bind_of_eq_ok (le_leBytes hv e rest) f

theorem take_bind {n : ℕ} {bytes : List UInt8} (hn : bytes.length = n) {e : E}
    {f : List UInt8 → ByteReader E B} {rest : List UInt8} :
    (take n e >>= f) (bytes ++ rest) = f bytes rest :=
  bind_of_eq_ok (take_append hn e rest) f

theorem check_bind {x : Except E Unit} (h : x = .ok ()) {f : Unit → ByteReader E B}
    {bytes : List UInt8} : (check x >>= f) bytes = f () bytes :=
  bind_of_eq_ok (check_eq_ok.mpr ⟨h, rfl⟩) f

/-- A reader accepts only what a writer writes. -/
def Canonical (r : ByteReader E A) (write : A → List UInt8) : Prop :=
  ∀ {bytes rest a}, r bytes = .ok (a, rest) → bytes = write a ++ rest

theorem Canonical.times {r : ByteReader E A} {write : A → List UInt8} (h : Canonical r write) :
    ∀ {n : ℕ} {bytes rest : List UInt8} {l : List A}, times r n bytes = .ok (l, rest) →
      l.length = n ∧ bytes = l.flatMap write ++ rest := by
  intro n
  induction n with
  | zero =>
    intro bytes rest l hl
    obtain ⟨rfl, rfl⟩ := pure_eq_ok.1 hl
    exact ⟨rfl, rfl⟩
  | succ n ih =>
    intro bytes rest l hl
    simp only [ByteReader.times, bind_eq_ok, pure_eq_ok] at hl
    obtain ⟨a, mid, ha, tail, mid', htail, rfl, rfl⟩ := hl
    obtain ⟨hlen, rfl⟩ := ih htail
    rw [h ha, flatMap_cons, append_assoc, length_cons, hlen]
    exact ⟨rfl, rfl⟩

/-- What holds of every field that is read holds of the fields of a list. -/
theorem times_forall {r : ByteReader E A} {P : A → Prop}
    (h : ∀ {bytes rest a}, r bytes = .ok (a, rest) → P a) :
    ∀ {n : ℕ} {bytes rest : List UInt8} {l : List A}, times r n bytes = .ok (l, rest) →
      ∀ a ∈ l, P a := by
  intro n
  induction n with
  | zero =>
    intro bytes rest l hl
    obtain ⟨rfl, -⟩ := pure_eq_ok.1 hl
    simp
  | succ n ih =>
    intro bytes rest l hl
    simp only [ByteReader.times, bind_eq_ok, pure_eq_ok] at hl
    obtain ⟨a, mid, ha, tail, mid', htail, rfl, -⟩ := hl
    rw [forall_mem_cons]
    exact ⟨h ha, ih htail⟩

/-- A field that is read back is read back any number of times. -/
theorem times_flatMap {r : ByteReader E A} {write : A → List UInt8} {l : List A}
    (h : ∀ a ∈ l, ∀ rest, r (write a ++ rest) = .ok (a, rest)) (rest : List UInt8) :
    times r l.length (l.flatMap write ++ rest) = .ok (l, rest) := by
  induction l with
  | nil => rfl
  | cons a l ih =>
    rw [flatMap_cons, append_assoc, length_cons]
    simp only [ByteReader.times, bind_eq_ok, pure_eq_ok]
    exact ⟨a, _, h a mem_cons_self _, l, rest,
      ih fun a' ha' => h a' (mem_cons_of_mem _ ha'), rfl, rfl⟩

end ByteReader

/-! ## Texts

A text is a string of bytes; here each character stands for one byte. -/

/-- The bytes of a text. -/
def textBytes (text : String) : List UInt8 := text.toList.map fun c => UInt8.ofNat c.toNat

/-- The text of some bytes. -/
def bytesText (bytes : List UInt8) : String :=
  String.ofList (bytes.map fun b => Char.ofNat b.toNat)

theorem toNat_ofNat_byte (b : UInt8) : (Char.ofNat b.toNat).toNat = b.toNat := by
  have hlt : b.toNat < 256 := b.toNat_lt
  have hvalid : b.toNat.isValidChar := .inl (by omega)
  rw [Char.ofNat, dif_pos hvalid]
  rfl

@[simp] theorem length_textBytes (text : String) : (textBytes text).length = text.length := by
  rw [textBytes, length_map, String.length_toList]

@[simp] theorem textBytes_bytesText (bytes : List UInt8) : textBytes (bytesText bytes) = bytes := by
  unfold textBytes bytesText
  rw [String.toList_ofList, map_map]
  refine map_id'' (fun b => ?_) bytes
  simp [toNat_ofNat_byte]

@[simp] theorem length_bytesText (bytes : List UInt8) : (bytesText bytes).length = bytes.length := by
  rw [← length_textBytes, textBytes_bytesText]

/-- A text of one-byte characters is given back by its bytes. -/
theorem bytesText_textBytes {text : String} (h : ∀ c ∈ text.toList, c.toNat < 256) :
    bytesText (textBytes text) = text := by
  unfold textBytes bytesText
  have hid : (text.toList.map fun c => UInt8.ofNat c.toNat).map (fun b => Char.ofNat b.toNat)
      = text.toList := by
    rw [map_map]
    refine (map_congr_left fun c hc => ?_).trans (map_id _)
    change Char.ofNat (UInt8.ofNat c.toNat).toNat = c
    rw [UInt8.toNat_ofNat_of_lt' (h c hc), Char.ofNat_toNat]
  rw [hid, String.ofList_toList]

/-- A text of one-byte characters that fits a field. -/
structure TextFits (limit : ℕ) (text : String) : Prop where
  length_le : text.length ≤ limit
  chars_lt : ∀ c ∈ text.toList, c.toNat < 256

theorem TextFits.mono {a b : ℕ} {text : String} (h : TextFits a text) (hle : a ≤ b) :
    TextFits b text :=
  ⟨h.length_le.trans hle, h.chars_lt⟩
