/-
# Type-length-value areas

An area of entries, each a two-byte type, a two-byte length and a value.  `Tlv.fold` walks
an area and throws at an entry that does not lie inside it.

* `fold_encodeAll` : over encoded entries the walk is a fold over the list of them;
* `exists_entries_of_fold` : an area that a walk accepts is a list of encoded entries.
-/
import ChunkDb.Lib.LittleEndian

open LittleEndian List

namespace Tlv

/-- One entry of an area. -/
structure Entry where
  type : ℕ
  value : List UInt8
  deriving DecidableEq

/-- The bytes of an entry. -/
def Entry.encode (entry : Entry) : List UInt8 :=
  leBytes 2 entry.type ++ leBytes 2 entry.value.length ++ entry.value

/-- The type and the length of an entry fit their fields. -/
structure Entry.Fits (entry : Entry) : Prop where
  type : entry.type < 256 ^ 2
  value : entry.value.length < 256 ^ 2

/-- An area of entries. -/
def encodeAll (entries : List Entry) : List UInt8 := entries.flatMap Entry.encode

/-- The entry an area starts with. -/
def head (bytes : List UInt8) : Entry := ⟨readLe 2 bytes 0, (bytes.drop 4).take (readLe 2 bytes 2)⟩

/-- The bytes of the header of an entry. -/
def headerSize : ℕ := 4

variable {E S : Type} (truncated : E) (overruns : ℕ → E) (f : S → Entry → Except E S)

/-- The walk, one entry for each unit of fuel. -/
def walk : ℕ → S → List UInt8 → Except E S
  | 0, s, _ => .ok s
  | fuel + 1, s, bytes =>
    if bytes = [] then .ok s
    else if bytes.length < headerSize then .error truncated
    else if bytes.length - headerSize < readLe 2 bytes 2 then .error (overruns (readLe 2 bytes 0))
    else do
      let s ← f s (head bytes)
      walk fuel s (bytes.drop (headerSize + readLe 2 bytes 2))

/-- The walk over a whole area. -/
def fold (s : S) (bytes : List UInt8) : Except E S := walk truncated overruns f bytes.length s bytes

/-! ## Areas of encoded entries -/

@[simp] theorem length_encode (entry : Entry) :
    entry.encode.length = headerSize + entry.value.length := by
  simp only [Entry.encode, headerSize, length_append, length_leBytes]

@[simp] theorem encodeAll_nil : encodeAll [] = [] := rfl

@[simp] theorem encodeAll_cons (entry : Entry) (entries : List Entry) :
    encodeAll (entry :: entries) = entry.encode ++ encodeAll entries := rfl

theorem encodeAll_append (entries entries' : List Entry) :
    encodeAll (entries ++ entries') = encodeAll entries ++ encodeAll entries' :=
  flatMap_append

variable {entry : Entry} {rest : List UInt8}

theorem readLe_type (h : entry.Fits) : readLe 2 (entry.encode ++ rest) 0 = entry.type := by
  rw [Entry.encode, append_assoc, append_assoc]
  exact readLe_leBytes 2 _ _ h.type

theorem readLe_length (h : entry.Fits) :
    readLe 2 (entry.encode ++ rest) 2 = entry.value.length := by
  rw [Entry.encode, append_assoc]
  exact readLe_middle 2 _ (leBytes 2 entry.type) _ 2 (by simp) h.value

theorem head_encode (h : entry.Fits) : head (entry.encode ++ rest) = entry := by
  have hdrop : (entry.encode ++ rest).drop 4 = entry.value ++ rest := by
    rw [Entry.encode, append_assoc, drop_append]
    simp
  rw [head, readLe_type h, readLe_length h, hdrop, take_left]

/-- One entry of the walk. -/
theorem walk_encode_append (h : entry.Fits) (fuel : ℕ) (s : S) :
    walk truncated overruns f (fuel + 1) s (entry.encode ++ rest) =
      (f s entry).bind fun s => walk truncated overruns f fuel s rest := by
  have hlen : (entry.encode ++ rest).length = headerSize + entry.value.length + rest.length := by
    simp
  have hne : entry.encode ++ rest ≠ [] := by
    intro hnil
    rw [hnil] at hlen
    simp [headerSize] at hlen
    omega
  have hdrop : (entry.encode ++ rest).drop (headerSize + entry.value.length) = rest := by
    rw [← length_encode, drop_left]
  rw [walk, if_neg hne, if_neg (by omega), readLe_length h, if_neg (by omega), head_encode h, hdrop]
  rfl

/-- Over encoded entries the walk is a fold over the list of them. -/
theorem walk_encodeAll {entries : List Entry} (h : ∀ entry ∈ entries, entry.Fits) {fuel : ℕ}
    (hfuel : (encodeAll entries).length ≤ fuel) (s : S) :
    walk truncated overruns f fuel s (encodeAll entries) = entries.foldlM f s := by
  induction entries generalizing fuel s with
  | nil => cases fuel <;> simp [walk, pure, Except.pure]
  | cons entry entries ih =>
    rw [encodeAll_cons, length_append, length_encode, headerSize] at hfuel
    obtain ⟨fuel, rfl⟩ : ∃ n, fuel = n + 1 := ⟨fuel - 1, by omega⟩
    rw [encodeAll_cons, walk_encode_append _ _ _ (h entry mem_cons_self), foldlM_cons]
    have ih : ∀ s, walk truncated overruns f fuel s (encodeAll entries) = entries.foldlM f s :=
      fun s => ih (fun e he => h e (mem_cons_of_mem _ he)) (by omega) s
    simp only [ih]
    rfl

theorem fold_encodeAll {entries : List Entry} (h : ∀ entry ∈ entries, entry.Fits) (s : S) :
    fold truncated overruns f s (encodeAll entries) = entries.foldlM f s :=
  walk_encodeAll truncated overruns f h le_rfl s

variable {truncated overruns f}

/-- An area whose first entry lies inside it starts with that entry's bytes. -/
theorem eq_encode_append {bytes : List UInt8} (hheader : headerSize ≤ bytes.length)
    (hvalue : readLe 2 bytes 2 ≤ bytes.length - headerSize) :
    bytes = (head bytes).encode ++ bytes.drop (headerSize + readLe 2 bytes 2) ∧
      (head bytes).Fits := by
  have hlen : (head bytes).value.length = readLe 2 bytes 2 := by
    rw [head, length_take, length_drop]
    exact min_eq_left hvalue
  have htype : leBytes 2 (readLe 2 bytes 0) = bytes.take 2 := by
    have h := leBytes_leNat ((bytes.drop 0).take 2)
    rwa [length_take, length_drop, min_eq_left (by rw [headerSize] at hheader; omega)] at h
  have hlength : leBytes 2 (readLe 2 bytes 2) = (bytes.drop 2).take 2 := by
    have h := leBytes_leNat ((bytes.drop 2).take 2)
    rwa [length_take, length_drop, min_eq_left (by rw [headerSize] at hheader; omega)] at h
  constructor
  · rw [Entry.encode, hlen, head, hlength, htype, headerSize, append_assoc, ← drop_drop,
      take_append_drop, append_assoc]
    calc bytes = bytes.take 2 ++ bytes.drop 2 := (take_append_drop 2 bytes).symm
      _ = bytes.take 2 ++ ((bytes.drop 2).take 2 ++ bytes.drop 4) := by
        rw [← drop_drop (i := 2) (j := 2), take_append_drop 2 (bytes.drop 2)]
  · exact ⟨readLe_lt 2 bytes 0, hlen ▸ readLe_lt 2 bytes 2⟩

/-- An area that a walk accepts is a list of encoded entries. -/
theorem exists_entries_of_walk {fuel : ℕ} {s s' : S} {bytes : List UInt8}
    (hfuel : bytes.length ≤ fuel) (h : walk truncated overruns f fuel s bytes = .ok s') :
    ∃ entries : List Entry, bytes = encodeAll entries ∧ ∀ entry ∈ entries, entry.Fits := by
  induction fuel generalizing s bytes with
  | zero => exact ⟨[], length_eq_zero_iff.1 (by omega), fun _ he => absurd he (by simp)⟩
  | succ fuel ih =>
    rw [walk] at h
    split at h
    case isTrue hnil => exact ⟨[], hnil, fun _ he => absurd he (by simp)⟩
    case isFalse hne =>
      split at h
      case isTrue => cases h
      case isFalse hheader =>
        split at h
        case isTrue => cases h
        case isFalse hvalue =>
          cases hf : f s (head bytes) with
          | error e => rw [hf] at h; cases h
          | ok t =>
            rw [hf] at h
            obtain ⟨hbytes, hfits⟩ := eq_encode_append (not_lt.1 hheader) (not_lt.1 hvalue)
            have hshort : (bytes.drop (headerSize + readLe 2 bytes 2)).length ≤ fuel := by
              rw [length_drop, headerSize]
              omega
            obtain ⟨entries, hentries, hall⟩ := ih hshort h
            refine ⟨head bytes :: entries, ?_, ?_⟩
            · rw [encodeAll_cons, ← hentries]
              exact hbytes
            · rintro entry he
              rcases mem_cons.1 he with rfl | he
              · exact hfits
              · exact hall entry he

theorem exists_entries_of_fold {s s' : S} {bytes : List UInt8}
    (h : fold truncated overruns f s bytes = .ok s') :
    ∃ entries : List Entry, bytes = encodeAll entries ∧ ∀ entry ∈ entries, entry.Fits :=
  exists_entries_of_walk le_rfl h

end Tlv
