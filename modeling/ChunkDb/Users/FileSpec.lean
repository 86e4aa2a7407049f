/-
# What a users file may hold

`DecodeUsers` takes users and grants in any order.  Whatever it accepts holds users that
`EncodeUsers` writes, in a file of the same length: every byte was read.
-/
import ChunkDb.Users.File

open LittleEndian ByteReader List SortedMap

namespace ChunkDb

/-- A user with valid names and a salt within the limits; the type has the other limits. -/
structure ValidUser (entry : String × User) : Prop where
  name : isValidUserName entry.1 = true
  salt : SaltLengthFits entry.2.verifier.salt.length
  tables : ∀ grant ∈ entry.2.grants.entries, isValidGrantTable grant.1 = true

def Users.Valid (users : Users) : Prop := ∀ entry ∈ users.users.entries, ValidUser entry

/-- `PutCount` takes the numbers of users and of grants. -/
def Users.CountsFit (users : Users) : Prop :=
  users.users.entries.length ≤ 0xFFFFFFFF
    ∧ ∀ entry ∈ users.users.entries, entry.2.grants.entries.length ≤ 0xFFFFFFFF

/-- Valid users are written if their numbers fit. -/
theorem encodeUsers_eq_ok {users : Users} (h : users.Valid) {bytes : Bytes} :
    encodeUsers users = .ok bytes ↔ users.CountsFit ∧ bytes = withCrc (usersBytes users) := by
  have huser : ∀ entry ∈ users.users.entries, requireEncodableUser entry = .ok ()
      ↔ entry.2.grants.entries.length ≤ 0xFFFFFFFF := by
    intro entry hentry
    have hname := (textFits_of_isValidUserName (h entry hentry).name).length_le
    have htables := fun grant hgrant =>
      (textFits_of_isValidGrantTable ((h entry hentry).tables grant hgrant)).length_le
    simp only [requireEncodableUser, requireShortString, requireCount, check_bind_eq_ok,
      require_eq_ok, checkAll_eq_ok, hname, (h entry hentry).salt, true_and, and_iff_left_iff_imp]
    exact fun _ => htables
  simp only [encodeUsers, requireCount, check_bind_eq_ok, require_eq_ok, checkAll_eq_ok]
  rw [forall₂_congr huser, ← and_assoc]
  exact and_congr_right fun _ => ⟨fun heq => (Except.ok.inj heq).symm, fun heq => congrArg _ heq.symm⟩

section Read

variable {bytes rest : Bytes} {name : String}

theorem length_readShortString {text : String} (h : readShortString bytes = .ok (text, rest)) :
    bytes.length = (putShortString text).length + rest.length := by
  simp only [readShortString, ByteReader.bind_eq_ok, le_eq_ok, take_eq_ok, pure_eq_ok] at h
  obtain ⟨size, _, ⟨-, rfl⟩, out, _, ⟨rfl, rfl⟩, rfl, rfl⟩ := h
  simp [putShortString, Nat.add_assoc]

theorem length_readBytes32 {value : Bytes32} (h : readBytes32 bytes = .ok (value, rest)) :
    bytes.length = 32 + rest.length := by
  simp only [readBytes32, ByteReader.bind_eq_ok, take_eq_ok, pure_eq_ok] at h
  obtain ⟨out, _, ⟨hlength, rfl⟩, -, rfl⟩ := h
  rw [length_append, hlength]

theorem readVerifier_spec {verifier : Verifier}
    (h : readVerifier name bytes = .ok (verifier, rest)) :
    SaltLengthFits verifier.salt.length
      ∧ bytes.length = 70 + verifier.salt.length + rest.length := by
  simp only [readVerifier, ByteReader.bind_eq_ok, le_eq_ok] at h
  obtain ⟨iterations, _, ⟨-, rfl⟩, h⟩ := h
  split at h
  · simp only [ByteReader.bind_eq_ok, le_eq_ok, take_eq_ok, check_eq_ok, require_eq_ok,
      pure_eq_ok] at h
    obtain ⟨size, _, ⟨-, rfl⟩, _, _, ⟨hsalt, rfl⟩, salt, _, ⟨rfl, rfl⟩, _, _, hstored, _, _,
      hserver, rfl, rfl⟩ := h
    have hstored := length_readBytes32 hstored
    have hserver := length_readBytes32 hserver
    refine ⟨hsalt, ?_⟩
    simp only [length_append, length_leBytes]
    omega
  · simp at h

/-- The grants that are read are valid, and every byte is one of theirs. -/
theorem readGrants_spec {count : ℕ} {grants out : Grants}
    (h : readGrants name count grants bytes = .ok (out, rest))
    (hvalid : ∀ grant ∈ grants.entries, isValidGrantTable grant.1 = true) :
    (∀ grant ∈ out.entries, isValidGrantTable grant.1 = true)
      ∧ count + grants.entries.length = out.entries.length
      ∧ bytes.length + (grants.entries.flatMap grantBytes).length
        = (out.entries.flatMap grantBytes).length + rest.length := by
  induction count generalizing grants bytes with
  | zero =>
    obtain ⟨rfl, rfl⟩ := pure_eq_ok.mp h
    exact ⟨hvalid, Nat.zero_add _, Nat.add_comm ..⟩
  | succ count ih =>
    simp only [readGrants, ByteReader.bind_eq_ok, check_eq_ok, require_eq_ok, le_eq_ok,
      lift_eq_ok] at h
    obtain ⟨table, _, htable, _, _, ⟨hname, rfl⟩, code, _, ⟨-, rfl⟩, right, _, ⟨hright, rfl⟩, _, _,
      ⟨hnew, rfl⟩, h⟩ := h
    have hlength := length_readShortString htable
    obtain ⟨hout, hcount, hbytes⟩ := ih h (by
      rintro ⟨other, right⟩ hmem
      rcases (mem_assign ..).mp hmem with ⟨rfl, -⟩ | ⟨-, hmem⟩
      · exact hname
      · exact hvalid _ hmem)
    rw [length_assign_new hnew] at hcount
    simp only [length_flatMap_assign_new _ hnew, grantBytes, length_append, length_leBytes]
      at hbytes hlength
    exact ⟨hout, by omega, by omega⟩

/-- The users that are read are valid, and every byte is one of theirs. -/
theorem readUsers_spec {count : ℕ} {users out : SortedMap String User}
    (h : readUsers count users bytes = .ok (out, rest))
    (hvalid : ∀ entry ∈ users.entries, ValidUser entry
      ∧ entry.2.grants.entries.length ≤ 0xFFFFFFFF) :
    (∀ entry ∈ out.entries, ValidUser entry ∧ entry.2.grants.entries.length ≤ 0xFFFFFFFF)
      ∧ count + users.entries.length = out.entries.length
      ∧ bytes.length + (users.entries.flatMap userBytes).length
        = (out.entries.flatMap userBytes).length + rest.length := by
  induction count generalizing users bytes with
  | zero =>
    obtain ⟨rfl, rfl⟩ := pure_eq_ok.mp h
    exact ⟨hvalid, Nat.zero_add _, Nat.add_comm ..⟩
  | succ count ih =>
    simp only [readUsers, ByteReader.bind_eq_ok, check_eq_ok, require_eq_ok, le_eq_ok] at h
    obtain ⟨name, _, hshort, _, _, ⟨hname, rfl⟩, flags, _, ⟨-, rfl⟩, _, _, ⟨-, rfl⟩, verifier, _,
      hverifier, grantCount, _, ⟨hcount, rfl⟩, grants, _, hgrants, _, _, ⟨hnew, rfl⟩, h⟩ := h
    have hlength := length_readShortString hshort
    obtain ⟨hsalt, hverifier⟩ := readVerifier_spec hverifier
    obtain ⟨htables, (rfl : grantCount = _), (hgrants : length _ = _)⟩ := readGrants_spec hgrants nofun
    obtain ⟨hout, husers, hbytes⟩ := ih h (by
      rintro ⟨other, user⟩ hmem
      rcases (mem_assign ..).mp hmem with ⟨rfl, rfl⟩ | ⟨-, hmem⟩
      · exact ⟨⟨hname, hsalt, htables⟩, Nat.le_of_lt_succ hcount⟩
      · exact hvalid _ hmem)
    rw [length_assign_new hnew] at husers
    simp only [length_flatMap_assign_new _ hnew, userBytes, length_append, length_leBytes,
      Bytes32.length_eq] at hbytes hlength hverifier
    exact ⟨hout, by omega, by omega⟩

/-- What an accepted file holds. -/
theorem decodeUsers_spec {users : Users} (h : decodeUsers bytes = .ok users) :
    users.Valid ∧ users.CountsFit ∧ (withCrc (usersBytes users)).length = bytes.length := by
  simp only [decodeUsers, check_bind_eq_ok, require_eq_ok] at h
  obtain ⟨⟨hsize, -⟩, -, h⟩ := h
  rw [ChunkDb.bind_eq_ok] at h
  obtain ⟨⟨out, rest⟩, h, heq⟩ := h
  cases heq
  simp only [ByteReader.bind_eq_ok, le_eq_ok, check_eq_ok, require_eq_ok, atEnd_eq_ok,
    pure_eq_ok] at h
  obtain ⟨version, _, ⟨-, hbody⟩, _, _, ⟨-, rfl⟩, secret, _, hsecret, count, _, ⟨hcount, rfl⟩, read,
    _, hread, atEnd, _, ⟨hend, rfl⟩, _, _, ⟨hatEnd, rfl⟩, rfl, rfl⟩ := h
  obtain ⟨hvalid, (rfl : count = _), (hlength : length _ = _)⟩ :=
    readUsers_spec hread fun _ hentry => absurd hentry not_mem_nil
  refine ⟨fun entry hentry => (hvalid entry hentry).1, ⟨Nat.le_of_lt_succ hcount,
    fun entry hentry => (hvalid entry hentry).2⟩, ?_⟩
  have hsecret := length_readBytes32 hsecret
  have hbody := congrArg length hbody
  rw [hatEnd, List.isEmpty_iff_length_eq_zero] at hend
  simp only [length_drop, length_take, length_append, length_leBytes] at hbody hsecret
  simp only [length_withCrc, usersBytes, length_append, length_leBytes, Bytes32.length_eq]
  have hmagic : kUsersMagic.length = 4 := rfl
  omega

end Read

/-- The names of an `a` and 32 letters `a` or `b` are more than 32 bits count. -/
theorem exists_validUserNames : ∃ names : List String, names.Pairwise (· < ·)
    ∧ names.length = 2 ^ 32 ∧ ∀ name ∈ names, isValidUserName name = true := by
  let nameOf (letters : Fin 32 → Bool) : String :=
    String.ofList ('a' :: ofFn fun i => if letters i then 'a' else 'b')
  have hinjective : Function.Injective nameOf := by
    intro letters letters' h
    have h := ofFn_injective (cons_injective (String.ofList_injective h))
    funext i
    have hi := congrFun h i
    cases hl : letters i <;> cases hl' : letters' i <;> simp_all
  have hvalid : ∀ letters, isValidUserName (nameOf letters) = true := by
    intro letters
    simp only [isValidUserName, nameOf, String.toList_ofList, length_ofFn, all_cons,
      Bool.and_eq_true, all_eq_true, forall_mem_ofFn_iff]
    refine ⟨⟨by decide, by decide⟩, by decide, fun i => ?_⟩
    split <;> decide
  obtain ⟨names, hcard, hnames⟩ : ∃ names : Finset String, names.card = 2 ^ 32
      ∧ ∀ name ∈ names, isValidUserName name = true :=
    ⟨Finset.univ.map ⟨nameOf, hinjective⟩, by simp, by simpa using hvalid⟩
  exact ⟨names.sort, (Finset.sortedLT_sort names).pairwise, by simp [hcard], by simpa using hnames⟩

end ChunkDb
