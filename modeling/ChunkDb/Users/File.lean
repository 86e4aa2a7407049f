/-
# Users

The users of a data directory, their rights, and the file `chunkdb.users` that holds them
(`users.cpp`).  Users and grants are kept by name in ascending order, as the source's maps
keep them.

What `EncodeUsers` writes for users with valid names is read back by `DecodeUsers`
(`decodeUsers_of_encodeUsers`).
-/
import ChunkDb.Feed.SlotCodec
import ChunkDb.TableName
import ChunkDb.Lib.SortedMapLookup

open LittleEndian ByteReader List

namespace ChunkDb

/-! ## Rights -/

/-- `Right`. -/
inductive Right
  | read
  | write
  | admin
  deriving DecidableEq, Repr

/-- The number of a `Right`. -/
def Right.code : Right → ℕ
  | .read => 1
  | .write => 2
  | .admin => 3

def rightOf : ℕ → Option Right
  | 1 => some .read
  | 2 => some .write
  | 3 => some .admin
  | _ => none

theorem Right.code_injective : Function.Injective Right.code := by
  intro a b
  cases a <;> cases b <;> decide

/-- Each right includes the ones before it. -/
instance : LinearOrder Right := LinearOrder.lift' Right.code Right.code_injective

/-- `kEveryTable`. -/
def kEveryTable : String := "*"

/-- `IsValidGrantTable`. -/
def isValidGrantTable (table : String) : Bool := table == kEveryTable || isValidTableName table

/-- The grants of a user: the right on a table, by its name. -/
abbrev Grants := SortedMap String Right

/-- `RightOn`. -/
def rightOn (grants : Grants) (table : String) : Option Right :=
  match grants.find table, grants.find kEveryTable with
  | some own, some every => some (if own < every then every else own)
  | some own, none => some own
  | none, every => every

/-! ## Users -/

def kMinIterations : ℕ := 4096
def kMaxIterations : ℕ := 1000000
def kMinSaltBytes : ℕ := 16
def kMaxSaltBytes : ℕ := 256

/-- A digest or a secret of 32 bytes. -/
structure Bytes32 where
  bytes : Bytes
  length_eq : bytes.length = 32
  deriving DecidableEq

/-- `scram::Verifier`.  Every verifier comes from `ParseVerifier`, from `MakeVerifier` at
`kMinIterations` or from the users file, so its iteration count is in range; the length of its
salt is left to the checks of the source. -/
structure Verifier where
  iterations : ℕ
  iterations_ge : kMinIterations ≤ iterations
  iterations_le : iterations ≤ kMaxIterations
  salt : Bytes
  storedKey : Bytes32
  serverKey : Bytes32
  deriving DecidableEq

/-- `User`. -/
structure User where
  verifier : Verifier
  managesUsers : Bool
  grants : Grants
  deriving DecidableEq

/-- `Users`. -/
structure Users where
  secret : Bytes32
  users : SortedMap String User
  deriving DecidableEq

/-! ## Writing the file -/

/-- What the users throw. -/
def badUsers (what : String) : Exn := ⟨.invalidArgument, what⟩

/-- `SaltLengthFits`. -/
def SaltLengthFits (size : ℕ) : Prop := kMinSaltBytes ≤ size ∧ size ≤ kMaxSaltBytes

instance (size : ℕ) : Decidable (SaltLengthFits size) := by
  unfold SaltLengthFits
  infer_instance

/-- `SaltBounds`. -/
def saltBounds : String := toString kMinSaltBytes ++ ".." ++ toString kMaxSaltBytes

/-- What `PutShortString` refuses. -/
def requireShortString (text : String) : Fallible Unit :=
  require (text.length ≤ 0xFFFF) (badUsers "a name in chunkdb.users is longer than 65535 bytes")

/-- What `PutCount` refuses. -/
def requireCount (count : ℕ) : Fallible Unit :=
  require (count ≤ 0xFFFFFFFF) (badUsers
    "chunkdb.users holds at most 4294967295 users, and a user at most as many grants")

/-- What `EncodeUsers` refuses of one user. -/
def requireEncodableUser (entry : String × User) : Fallible Unit := do
  requireShortString entry.1
  require (SaltLengthFits entry.2.verifier.salt.length)
    (badUsers ("user " ++ entry.1 ++ " has a " ++ toString entry.2.verifier.salt.length
      ++ "-byte verifier salt; chunkdb.users takes " ++ saltBounds ++ " bytes"))
  requireCount entry.2.grants.entries.length
  checkAll (fun grant => requireShortString grant.1) entry.2.grants.entries

/-- `PutShortString`. -/
def putShortString (text : String) : Bytes := leBytes 2 text.length ++ textBytes text

/-- One grant. -/
def grantBytes (grant : String × Right) : Bytes := putShortString grant.1 ++ leBytes 1 grant.2.code

/-- One user. -/
def userBytes (entry : String × User) : Bytes :=
  putShortString entry.1 ++ leBytes 1 (if entry.2.managesUsers then 1 else 0)
    ++ leBytes 4 entry.2.verifier.iterations ++ leBytes 2 entry.2.verifier.salt.length
    ++ entry.2.verifier.salt ++ entry.2.verifier.storedKey.bytes
    ++ entry.2.verifier.serverKey.bytes ++ leBytes 4 entry.2.grants.entries.length
    ++ entry.2.grants.entries.flatMap grantBytes

/-- `kMagic`: "CKDU". -/
def kUsersMagic : Bytes := [0x43, 0x4B, 0x44, 0x55]
def kUsersVersion : ℕ := 1

/-- What `EncodeUsers` writes before the checksum. -/
def usersBytes (users : Users) : Bytes :=
  kUsersMagic ++ leBytes 4 kUsersVersion ++ users.secret.bytes
    ++ leBytes 4 users.users.entries.length ++ users.users.entries.flatMap userBytes

/-- `EncodeUsers`. -/
def encodeUsers (users : Users) : Fallible Bytes := do
  requireCount users.users.entries.length
  checkAll requireEncodableUser users.users.entries
  return withCrc (usersBytes users)

/-! ## Reading the file -/

abbrev UsersReader := ByteReader Exn

def usersTruncated : Exn := badUsers "chunkdb.users is truncated"

/-- `Reader::ShortString`. -/
def readShortString : UsersReader String := do
  let size ← ByteReader.le 2 usersTruncated
  let bytes ← ByteReader.take size usersTruncated
  return bytesText bytes

/-- An array of 32 bytes. -/
def readBytes32 : UsersReader Bytes32 := do
  let bytes ← ByteReader.take 32 usersTruncated
  return ⟨bytes.takeD 32 0, takeD_length ..⟩

/-- The loop over the grants of a user. -/
def readGrants (name : String) : ℕ → Grants → UsersReader Grants
  | 0, grants => pure grants
  | count + 1, grants => do
    let table ← readShortString
    check (require (isValidGrantTable table = true) (badUsers
      ("chunkdb.users grants user " ++ name ++ " a right on an invalid table name")))
    let code ← ByteReader.le 1 usersTruncated
    let right ← ByteReader.lift ((rightOf code).elim
      (.error (badUsers ("chunkdb.users has an unknown right for user " ++ name))) .ok)
    check (require (grants.find table = none)
      (badUsers ("chunkdb.users repeats a grant of user " ++ name)))
    readGrants name count (grants.assign table right)

/-- The verifier of a user. -/
def readVerifier (name : String) : UsersReader Verifier := do
  let iterations ← ByteReader.le 4 usersTruncated
  if h : kMinIterations ≤ iterations ∧ iterations ≤ kMaxIterations then do
    let saltSize ← ByteReader.le 2 usersTruncated
    check (require (SaltLengthFits saltSize) (badUsers
      ("chunkdb.users gives user " ++ name ++ " a " ++ toString saltSize
        ++ "-byte verifier salt, outside " ++ saltBounds)))
    let salt ← ByteReader.take saltSize usersTruncated
    let storedKey ← readBytes32
    let serverKey ← readBytes32
    return ⟨iterations, h.1, h.2, salt, storedKey, serverKey⟩
  else
    ByteReader.lift (.error (badUsers ("chunkdb.users gives user " ++ name ++ " "
      ++ toString iterations ++ " verifier iterations, outside " ++ toString kMinIterations ++ ".."
      ++ toString kMaxIterations)))

/-- The loop over the users. -/
def readUsers : ℕ → SortedMap String User → UsersReader (SortedMap String User)
  | 0, users => pure users
  | count + 1, users => do
    let name ← readShortString
    check (require (isValidUserName name = true)
      (badUsers "chunkdb.users has an invalid user name"))
    let flags ← ByteReader.le 1 usersTruncated
    check (require (flags ≤ 1) (badUsers ("chunkdb.users has unknown flags for user " ++ name)))
    let verifier ← readVerifier name
    let grantCount ← ByteReader.le 4 usersTruncated
    let grants ← readGrants name grantCount SortedMap.empty
    check (require (users.find name = none) (badUsers ("chunkdb.users repeats user " ++ name)))
    readUsers count (users.assign name ⟨verifier, flags = 1, grants⟩)

/-- `DecodeUsers`. -/
def decodeUsers (bytes : Bytes) : Fallible Users := do
  require (kUsersMagic.length + 8 ≤ bytes.length ∧ bytes.take 4 = kUsersMagic)
    (badUsers "chunkdb.users is not a chunkdb users file")
  require (crc32 (bytes.take (bytes.length - 4)) = readLe 4 bytes (bytes.length - 4))
    (badUsers "chunkdb.users is damaged: its checksum does not match")
  let read : UsersReader Users := do
    let version ← ByteReader.le 4 usersTruncated
    check (require (version = kUsersVersion) (badUsers
      ("chunkdb.users has version " ++ toString version ++ ", which this build does not read")))
    let secret ← readBytes32
    let count ← ByteReader.le 4 usersTruncated
    let users ← readUsers count SortedMap.empty
    let atEnd ← ByteReader.atEnd
    check (require (atEnd = true) (badUsers "chunkdb.users has bytes after its users"))
    return ⟨secret, users⟩
  let (users, _) ← read ((bytes.take (bytes.length - 4)).drop 4)
  return users

/-! ## The file is read back -/

section Fields

variable (rest : Bytes)

theorem readShortString_putShortString {text : String} (h : TextFits 0xFFFF text) :
    readShortString (putShortString text ++ rest) = .ok (text, rest) := by
  have hlength : text.length < 256 ^ 2 := h.length_le.trans_lt (by decide)
  simp only [readShortString, putShortString, append_assoc]
  rw [le_bind hlength, take_bind (length_textBytes text), bytesText_textBytes h.chars_lt]
  rfl

theorem readBytes32_bytes (value : Bytes32) :
    readBytes32 (value.bytes ++ rest) = .ok (value, rest) := by
  obtain ⟨bytes, hlength⟩ := value
  rw [readBytes32, take_bind hlength]
  have htake : bytes.takeD 32 0 = bytes := by
    rw [takeD_eq_take _ hlength.ge, take_of_length_le hlength.le]
  simp only [htake]
  rfl

theorem readVerifier_bytes {verifier : Verifier} (hsalt : SaltLengthFits verifier.salt.length)
    (name : String) :
    readVerifier name (leBytes 4 verifier.iterations ++ (leBytes 2 verifier.salt.length
      ++ (verifier.salt ++ (verifier.storedKey.bytes ++ (verifier.serverKey.bytes ++ rest)))))
        = .ok (verifier, rest) := by
  have hrange : kMinIterations ≤ verifier.iterations ∧ verifier.iterations ≤ kMaxIterations :=
    ⟨verifier.iterations_ge, verifier.iterations_le⟩
  have hiterations : verifier.iterations < 256 ^ 4 := hrange.2.trans_lt (by decide)
  have hlength : verifier.salt.length < 256 ^ 2 := hsalt.2.trans_lt (by decide)
  rw [readVerifier, le_bind hiterations, dif_pos hrange, le_bind hlength,
    check_bind (require_of hsalt _), take_bind rfl, bind_of_eq_ok (readBytes32_bytes _ _),
    bind_of_eq_ok (readBytes32_bytes _ _)]
  rfl

end Fields

@[simp] theorem rightOf_code (right : Right) : rightOf right.code = some right := by
  cases right <;> rfl

theorem textFits_of_isValidUserName {name : String} (h : isValidUserName name = true) :
    TextFits 0xFFFF name := by
  have hfits := userNameFits_of_isValidUserName h
  exact ⟨hfits.length_lt.le.trans (by decide), hfits.chars_lt⟩

theorem textFits_of_isValidGrantTable {table : String} (h : isValidGrantTable table = true) :
    TextFits 0xFFFF table := by
  rw [isValidGrantTable, Bool.or_eq_true, beq_iff_eq] at h
  rcases h with rfl | h
  · refine ⟨by decide, ?_⟩
    intro c hc
    have hstar : c = '*' := by simpa [kEveryTable] using hc
    rw [hstar]
    decide
  · exact (textFits_of_validTableName h).mono (by decide)

/-- The names of the users and of the tables they have grants on are valid ones. -/
structure Users.NamesValid (users : Users) : Prop where
  names : ∀ entry ∈ users.users.entries, isValidUserName entry.1 = true
  tables : ∀ entry ∈ users.users.entries, ∀ grant ∈ entry.2.grants.entries,
    isValidGrantTable grant.1 = true

/-- The grants of a user are read back onto those before them. -/
theorem readGrants_flatMap {l : List (String × Right)} (hl : KeysAscending l)
    (hvalid : ∀ grant ∈ l, isValidGrantTable grant.1 = true) (name : String) {grants : Grants}
    (hnew : ∀ grant ∈ l, grants.find grant.1 = none) (rest : Bytes) :
    readGrants name l.length grants (l.flatMap grantBytes ++ rest)
      = .ok (grants.assignAll l, rest) := by
  induction l generalizing grants with
  | nil => rfl
  | cons grant l ih =>
    obtain ⟨hhead, htail⟩ := pairwise_cons.1 hl
    rw [forall_mem_cons] at hvalid hnew
    have hcode : grant.2.code < 256 ^ 1 := by cases grant.2 <;> decide
    have hright : (rightOf grant.2.code).elim
        (.error (badUsers ("chunkdb.users has an unknown right for user " ++ name)) : Fallible Right)
        .ok = .ok grant.2 := by rw [rightOf_code, Option.elim_some]
    have hrest : ∀ other ∈ l, (grants.assign grant.1 grant.2).find other.1 = none := by
      intro other hmem
      rw [SortedMap.find_assign_of_ne (hhead other hmem).ne', hnew.2 other hmem]
    simp only [length_cons, flatMap_cons, grantBytes, append_assoc, readGrants]
    rw [bind_of_eq_ok (readShortString_putShortString _ (textFits_of_isValidGrantTable hvalid.1)),
      check_bind (require_of hvalid.1 _), le_bind hcode, bind_of_eq_ok (lift_eq_ok.2 ⟨hright, rfl⟩),
      check_bind (require_of hnew.1 _)]
    exact ih htail hvalid.2 hrest

/-- The users are read back onto those before them. -/
theorem readUsers_flatMap {l : List (String × User)} (hl : KeysAscending l)
    (hnames : ∀ entry ∈ l, isValidUserName entry.1 = true)
    (htables : ∀ entry ∈ l, ∀ grant ∈ entry.2.grants.entries, isValidGrantTable grant.1 = true)
    (hencodable : ∀ entry ∈ l, requireEncodableUser entry = .ok ()) {users : SortedMap String User}
    (hnew : ∀ entry ∈ l, users.find entry.1 = none) (rest : Bytes) :
    readUsers l.length users (l.flatMap userBytes ++ rest) = .ok (users.assignAll l, rest) := by
  induction l generalizing users with
  | nil => rfl
  | cons entry l ih =>
    obtain ⟨hhead, htail⟩ := pairwise_cons.1 hl
    rw [forall_mem_cons] at hnames htables hencodable hnew
    obtain ⟨name, verifier, managesUsers, grants⟩ := entry
    have hchecks := hencodable.1
    simp only [requireEncodableUser, requireCount, check_bind_eq_ok, require_eq_ok] at hchecks
    obtain ⟨-, hsalt, hcount, -⟩ := hchecks
    have hcount : grants.entries.length < 256 ^ 4 := hcount.trans_lt (by decide)
    have hflags : (if managesUsers then 1 else 0) < 256 ^ 1 ∧
        (if managesUsers then 1 else 0) ≤ 1 := by cases managesUsers <;> decide
    have hflag : decide ((if managesUsers then 1 else 0) = 1) = managesUsers := by
      cases managesUsers <;> rfl
    have hgrants : ∀ tail, readGrants name grants.entries.length SortedMap.empty
        (grants.entries.flatMap grantBytes ++ tail) = .ok (grants, tail) := by
      intro tail
      rw [readGrants_flatMap grants.ascending htables.1 name (fun _ _ => SortedMap.find_empty _),
        SortedMap.assignAll_entries]
    have hrest : ∀ other ∈ l, (users.assign name ⟨verifier, managesUsers, grants⟩).find other.1
        = none := by
      intro other hmem
      rw [SortedMap.find_assign_of_ne (hhead other hmem).ne', hnew.2 other hmem]
    simp only [length_cons, flatMap_cons, userBytes, append_assoc, readUsers]
    rw [bind_of_eq_ok (readShortString_putShortString _ (textFits_of_isValidUserName hnames.1)),
      check_bind (require_of hnames.1 _), le_bind hflags.1, check_bind (require_of hflags.2 _),
      bind_of_eq_ok (readVerifier_bytes _ hsalt name), le_bind hcount, bind_of_eq_ok (hgrants _),
      check_bind (require_of hnew.1 _), hflag]
    exact ih htail hnames.2 htables.2 hencodable.2 hrest

/-- What is written for users with valid names is read back. -/
theorem decodeUsers_of_encodeUsers {users : Users} (hnames : users.NamesValid) {bytes : Bytes}
    (h : encodeUsers users = .ok bytes) : decodeUsers bytes = .ok users := by
  simp only [encodeUsers, check_bind_eq_ok, checkAll_eq_ok] at h
  obtain ⟨hcount, hencodable, h⟩ := h
  cases h
  have hcount : users.users.entries.length < 256 ^ 4 := by
    rw [requireCount, require_eq_ok] at hcount
    exact hcount.trans_lt (by decide)
  have hversion : kUsersVersion < 256 ^ 4 := by decide
  have husers := readUsers_flatMap users.users.ascending hnames.names hnames.tables hencodable
    (fun _ _ => SortedMap.find_empty _) []
  rw [SortedMap.assignAll_entries, append_nil] at husers
  have hfields : (usersBytes users).drop 4 = leBytes 4 kUsersVersion ++ (users.secret.bytes
      ++ (leBytes 4 users.users.entries.length ++ users.users.entries.flatMap userBytes)) := by
    simp only [usersBytes, append_assoc]
    rfl
  have hmagic : kUsersMagic.length + 8 ≤ (withCrc (usersBytes users)).length ∧
      (withCrc (usersBytes users)).take 4 = kUsersMagic := by
    refine ⟨?_, by simp only [withCrc, usersBytes, append_assoc]; rfl⟩
    simp only [length_withCrc, usersBytes, length_append, length_leBytes]
    omega
  rw [decodeUsers, require_of hmagic, ok_bind,
    require_of (checksum_withCrc _).symm, ok_bind, take_withCrc, hfields]
  dsimp only
  rw [le_bind hversion, check_bind (require_of rfl _), bind_of_eq_ok (readBytes32_bytes _ _),
    le_bind hcount, bind_of_eq_ok husers]
  rfl

end ChunkDb
