/-
# Table names

The names a table may have (`table_catalog.cpp`).  They are short texts of one-byte
characters, so every file format that stores one reads it back.
-/
import ChunkDb.StoreManifestSpec

namespace ChunkDb

def kMaxTableNameLength : ℕ := 64

def kWindowsDeviceNames : List String := ["con", "prn", "aux", "nul"]

/-- Lower-case letters and digits. -/
def lowerAlnum (c : Char) : Bool := ('a' ≤ c && c ≤ 'z') || ('0' ≤ c && c ≤ '9')

/-- `IsValidTableName`. -/
def isValidTableName (name : String) : Bool :=
  let chars := name.toList
  !chars.isEmpty && chars.length ≤ kMaxTableNameLength && chars.head?.any lowerAlnum
    && chars.all (fun c => lowerAlnum c || c == '_' || c == '-')
    && !kWindowsDeviceNames.contains name
    && !(chars.length == 4 && (chars.take 3 == "com".toList || chars.take 3 == "lpt".toList)
      && chars.getLast?.any (fun c => '0' ≤ c && c ≤ '9'))

theorem textFits_of_validTableName {name : String} (h : isValidTableName name = true) :
    TextFits kMaxTableNameLength name := by
  simp only [isValidTableName, Bool.and_eq_true, decide_eq_true_eq, List.all_eq_true] at h
  obtain ⟨⟨⟨⟨⟨-, hlength⟩, -⟩, hall⟩, -⟩, -⟩ := h
  refine ⟨by rwa [← String.length_toList], fun c hc => ?_⟩
  have hchar := hall c hc
  simp only [lowerAlnum, Bool.or_eq_true, Bool.and_eq_true, decide_eq_true_eq, beq_iff_eq] at hchar
  rcases hchar with ((⟨-, hz⟩ | ⟨-, h9⟩) | rfl) | rfl
  · exact lt_of_le_of_lt (UInt32.le_iff_toNat_le.1 hz) (by decide)
  · exact lt_of_le_of_lt (UInt32.le_iff_toNat_le.1 h9) (by decide)
  · decide
  · decide

end ChunkDb
