/-
# The user registry

The users in memory, written through to `chunkdb.users` (`user_registry.cpp`).  A change is
made on a copy of the users; what it publishes is prepared, the file is replaced, and only
then the copy, the incarnations and the rights view are installed.  A change that the rules
refuse, or whose write fails, leaves the registry as it was.

* `UserRegistry.Inv` : file, users, incarnations and rights view agree in every state.
-/
import ChunkDb.Users.File

namespace ChunkDb

open List Option SortedMap

/-! ## The registry -/

/-- `RightsView::Entry`. -/
structure RightsEntry where
  incarnation : ℕ
  grants : Grants
  deriving DecidableEq

/-- `RightsView`. -/
abbrev RightsView := SortedMap String RightsEntry

/-- `UserRegistry`, with the file it writes through to. -/
structure UserRegistry where
  readOnly : Bool
  file : Bytes
  users : Users
  incarnations : SortedMap String ℕ
  nextIncarnation : ℕ
  generation : ℕ
  rights : RightsView

/-- `Publication`. -/
structure Publication where
  incarnations : SortedMap String ℕ
  nextIncarnation : ℕ
  rights : RightsView

/-- One round of the loop of `PrepareLocked`: a user who was there keeps its incarnation, a
new one gets the next. -/
def Publication.add (kept : SortedMap String ℕ) (publication : Publication)
    (entry : String × User) : Publication :=
  let incarnation := (kept.find entry.1).getD publication.nextIncarnation
  { incarnations := publication.incarnations.assign entry.1 incarnation
    nextIncarnation :=
      if (kept.find entry.1).isSome then publication.nextIncarnation
      else publication.nextIncarnation + 1
    rights := publication.rights.assign entry.1 ⟨incarnation, entry.2.grants⟩ }

/-- The loop of `PrepareLocked`. -/
def prepareEntries (kept : SortedMap String ℕ) (publication : Publication)
    (entries : List (String × User)) : Publication :=
  entries.foldl (Publication.add kept) publication

namespace UserRegistry

/-- `PrepareLocked`. -/
def prepareLocked (registry : UserRegistry) (next : Users) : Publication :=
  prepareEntries registry.incarnations ⟨.empty, registry.nextIncarnation, .empty⟩ next.users.entries

/-- `InstallLocked`. -/
def installLocked (registry : UserRegistry) (publication : Publication) : UserRegistry :=
  { registry with
    incarnations := publication.incarnations
    nextIncarnation := publication.nextIncarnation
    rights := publication.rights }

/-- `CommitLocked`. -/
def commitLocked (registry : UserRegistry) (next : Users) (publication : Publication) :
    UserRegistry :=
  let registry := { registry with users := next }
  { registry.installLocked publication with generation := registry.generation + 1 }

end UserRegistry

/-! ## Changes -/

/-- `RequireName`. -/
def requireUserName (name : String) : Fallible Unit :=
  require (isValidUserName name = true)
    (badUsers ("a user name is [a-z_][a-z0-9_]*, at most 63 bytes: " ++ name))

/-- `RequireValidGrantTable`. -/
def requireValidGrantTable (table : String) : Fallible Unit :=
  require (isValidGrantTable table = true)
    (badUsers ("invalid table name '" ++ table
      ++ "': use 1-64 characters from a-z, 0-9, '_' and '-', starting with a letter "
      ++ "or digit, and not a Windows device name (con, prn, aux, nul, com0-9, lpt0-9)"))

/-- `Existing`. -/
def existingUser (users : Users) (name : String) : Fallible User :=
  (users.users.find name).elim (.error (badUsers ("user " ++ name ++ " does not exist"))) .ok

/-- Some user manages users. -/
def Users.HasManager (users : Users) : Prop :=
  ∃ entry ∈ users.users.entries, entry.2.managesUsers = true

instance (users : Users) : Decidable users.HasManager := by
  unfold Users.HasManager
  infer_instance

/-- `RequireUserManager`. -/
def requireUserManager (users : Users) : Fallible Unit :=
  require users.HasManager
    (badUsers "the last user who manages users cannot be dropped or lose that right")

/-- The users with one of them replaced. -/
def Users.set (users : Users) (name : String) (user : User) : Users :=
  { users with users := users.users.assign name user }

/-- What `Grant` leaves of the grants. -/
def grantRight (grants : Grants) (table : String) (right : Right) : Grants :=
  match grants.find table with
  | some held => if held < right then grants.assign table right else grants
  | none => grants.assign table right

/-- The right below another one. -/
def Right.previous : Right → Right
  | .admin => .write
  | _ => .read

/-- What `Revoke` leaves of the grants. -/
def revokeRight (grants : Grants) (table : String) (right : Right) : Grants :=
  match grants.find table with
  | some held =>
    if held < right then grants
    else if right = .read then grants.remove table
    else grants.assign table right.previous
  | none => grants

/-- The calls that change users. -/
inductive UserUpdate
  | create (name : String) (verifier : Verifier) (managesUsers ifNotExists : Bool)
  | setVerifier (name : String) (verifier : Verifier)
  | setOwnVerifier (name : String) (incarnation : ℕ) (verifier : Verifier)
  | setManagesUsers (name : String) (managesUsers : Bool)
  | drop (name : String) (ifExists : Bool)
  | grant (name table : String) (right : Right)
  | revoke (name table : String) (right : Right)
  | forgetTable (table : String)

namespace UserUpdate

/-- What a call checks before it takes the lock. -/
def precheck : UserUpdate → Fallible Unit
  | create name _ _ _ | drop name _ => requireUserName name
  | grant _ table _ => requireValidGrantTable table
  | _ => .ok ()

/-- The change a call makes to a copy of the users; none when there is nothing to do. -/
def change (registry : UserRegistry) : UserUpdate → Fallible (Option Users)
  | create name verifier managesUsers ifNotExists =>
    match registry.users.users.find name with
    | some _ =>
      if ifNotExists then .ok none
      else .error (badUsers ("user " ++ name ++ " already exists"))
    | none => .ok (some (registry.users.set name ⟨verifier, managesUsers, .empty⟩))
  | setVerifier name verifier => do
    let user ← existingUser registry.users name
    return some (registry.users.set name { user with verifier := verifier })
  | setOwnVerifier name incarnation verifier =>
    if registry.incarnations.find name = some incarnation then do
      let user ← existingUser registry.users name
      return some (registry.users.set name { user with verifier := verifier })
    else .ok none
  | setManagesUsers name managesUsers => do
    let user ← existingUser registry.users name
    let next := registry.users.set name { user with managesUsers := managesUsers }
    requireUserManager next
    return some next
  | drop name ifExists =>
    match registry.users.users.find name with
    | none =>
      if ifExists then .ok none
      else .error (badUsers ("user " ++ name ++ " does not exist"))
    | some _ => do
      let next := { registry.users with users := registry.users.users.remove name }
      requireUserManager next
      return some next
  | grant name table right => do
    let user ← existingUser registry.users name
    return some (registry.users.set name { user with grants := grantRight user.grants table right })
  | revoke name table right => do
    let user ← existingUser registry.users name
    return some (registry.users.set name { user with grants := revokeRight user.grants table right })
  | forgetTable table =>
    .ok (some { registry.users with
      users := registry.users.users.mapValues fun _ user =>
        { user with grants := user.grants.remove table } })

end UserUpdate

/-- What happens outside the registry while it is updated: the answer of the migration health
check, and the exception of the write of the file, if it fails. -/
structure UpdateOutcome where
  health : Fallible Unit
  write : Fallible Unit

namespace UserRegistry

/-- `UpdateIf`, for a call that passed its first check: the registry after the change. -/
def updateIf (registry : UserRegistry) (update : UserUpdate) (outcome : UpdateOutcome) :
    Fallible UserRegistry := do
  require (registry.readOnly = false)
    (badUsers "users cannot change: the data directory is open read-only")
  outcome.health
  match ← update.change registry with
  | none => return registry
  | some next => do
    let publication := registry.prepareLocked next
    let bytes ← encodeUsers next
    outcome.write
    return { registry with file := bytes }.commitLocked next publication

/-- A call: what it returns or throws, and the registry after it.  A call that throws has
changed nothing. -/
def call (registry : UserRegistry) (update : UserUpdate) (outcome : UpdateOutcome) :
    Fallible Unit × UserRegistry :=
  match (do update.precheck; registry.updateIf update outcome : Fallible UserRegistry) with
  | .ok registry' => (.ok (), registry')
  | .error e => (.error e, registry)

/-- The constructor, where there is no users file yet. -/
def created (name : String) (verifier : Verifier) (secret : Bytes32) : Fallible UserRegistry := do
  requireUserName name
  let users : Users := ⟨secret, SortedMap.empty.assign name
    ⟨verifier, true, SortedMap.empty.assign kEveryTable .admin⟩⟩
  let blank : UserRegistry := ⟨false, [], users, .empty, 1, 1, .empty⟩
  let bytes ← encodeUsers users
  return { blank with file := bytes }.installLocked (blank.prepareLocked users)

/-- The constructor, where there is a users file. -/
def opened (file : Bytes) (readOnly : Bool) : Fallible UserRegistry := do
  let users ← decodeUsers file
  let blank : UserRegistry := ⟨readOnly, file, users, .empty, 1, 1, .empty⟩
  return blank.installLocked (blank.prepareLocked users)

end UserRegistry

/-- The states of a registry, one after each call.  The first is that of a new users file, or
of the file that an earlier process left. -/
inductive UserRun : (ℕ → UserRegistry) → Prop
  | created {states : ℕ → UserRegistry} {name : String} {verifier : Verifier} {secret : Bytes32}
    (h : UserRegistry.created name verifier secret = .ok (states 0))
    (hcall : ∀ k, ∃ update outcome, states (k + 1) = ((states k).call update outcome).2) :
    UserRun states
  | opened {earlier states : ℕ → UserRegistry} {readOnly : Bool} (hearlier : UserRun earlier)
    (k : ℕ) (h : UserRegistry.opened (earlier k).file readOnly = .ok (states 0))
    (hcall : ∀ k, ∃ update outcome, states (k + 1) = ((states k).call update outcome).2) :
    UserRun states

/-! ## Publications -/

/-- What the loop of `PrepareLocked` makes of some users: a user who was there keeps its
incarnation, a new one has a number from the range the loop has passed, and the view shows the
grants with the number. -/
structure Prepared (kept : SortedMap String ℕ) (before : Publication)
    (entries : List (String × User)) (after : Publication) : Prop where
  next_le : before.nextIncarnation ≤ after.nextIncarnation
  other : ∀ name, (∀ entry ∈ entries, entry.1 ≠ name) →
    after.incarnations.find name = before.incarnations.find name ∧
      after.rights.find name = before.rights.find name
  entry : ∀ entry ∈ entries, ∃ incarnation,
    after.incarnations.find entry.1 = some incarnation ∧
      after.rights.find entry.1 = some ⟨incarnation, entry.2.grants⟩ ∧
      (kept.find entry.1 = some incarnation ∨ kept.find entry.1 = none ∧
        before.nextIncarnation ≤ incarnation ∧ incarnation < after.nextIncarnation)
  fresh : ∀ entry ∈ entries, ∀ entry' ∈ entries, kept.find entry.1 = none →
    kept.find entry'.1 = none →
    after.incarnations.find entry.1 = after.incarnations.find entry'.1 → entry.1 = entry'.1

/-- One round of the loop. -/
theorem Publication.find_add (kept : SortedMap String ℕ) (publication : Publication)
    (entry : String × User) :
    ∃ incarnation, (publication.add kept entry).incarnations.find entry.1 = some incarnation ∧
      (publication.add kept entry).rights.find entry.1 = some ⟨incarnation, entry.2.grants⟩ ∧
      (kept.find entry.1 = some incarnation ∧
          (publication.add kept entry).nextIncarnation = publication.nextIncarnation ∨
        kept.find entry.1 = none ∧ incarnation = publication.nextIncarnation ∧
          (publication.add kept entry).nextIncarnation = publication.nextIncarnation + 1) := by
  refine ⟨(kept.find entry.1).getD publication.nextIncarnation, find_assign_self ..,
    find_assign_self .., ?_⟩
  cases hkept : kept.find entry.1 with
  | some incarnation => exact Or.inl ⟨rfl, by simp [Publication.add, hkept]⟩
  | none => exact Or.inr ⟨rfl, rfl, by simp [Publication.add, hkept]⟩

theorem prepared_prepareEntries (kept : SortedMap String ℕ) {entries : List (String × User)}
    (h : KeysAscending entries) (publication : Publication) :
    Prepared kept publication entries (prepareEntries kept publication entries) := by
  induction entries generalizing publication with
  | nil => exact ⟨le_rfl, fun _ _ => ⟨rfl, rfl⟩, by simp, by simp⟩
  | cons entry entries ih =>
    obtain ⟨hhead, htail⟩ := pairwise_cons.1 h
    have hne : ∀ other ∈ entries, other.1 ≠ entry.1 := fun other hmem => (hhead other hmem).ne'
    have hrest := ih htail (publication.add kept entry)
    change Prepared kept publication (entry :: entries)
      (prepareEntries kept (publication.add kept entry) entries)
    generalize prepareEntries kept (publication.add kept entry) entries = after at hrest ⊢
    obtain ⟨incarnation, hfind, hview, hcases⟩ := publication.find_add kept entry
    have hnext : publication.nextIncarnation ≤ (publication.add kept entry).nextIncarnation := by
      rcases hcases with ⟨-, heq⟩ | ⟨-, -, heq⟩
      · exact heq.ge
      · omega
    obtain ⟨hinc, hrights⟩ := hrest.other entry.1 hne
    -- a later new user has a number past the one this user got
    have hlater : ∀ other ∈ entries, kept.find entry.1 = none → kept.find other.1 = none →
        after.incarnations.find entry.1 ≠ after.incarnations.find other.1 := by
      intro other hmem hnew hnew' heq
      obtain ⟨number, hnumber, -, hkept | ⟨-, hge, -⟩⟩ := hrest.entry other hmem
      · rw [hnew'] at hkept
        cases hkept
      · rw [hnumber, hinc, hfind, Option.some.injEq] at heq
        rcases hcases with ⟨hkept, -⟩ | ⟨-, rfl, heq'⟩
        · rw [hnew] at hkept
          cases hkept
        · omega
    refine ⟨hnext.trans hrest.next_le, fun name hname => ?_, ?_, ?_⟩
    · rw [forall_mem_cons] at hname
      obtain ⟨hinc', hrights'⟩ := hrest.other name hname.2
      rw [hinc', hrights']
      exact ⟨find_assign_of_ne (Ne.symm hname.1) .., find_assign_of_ne (Ne.symm hname.1) ..⟩
    · rw [forall_mem_cons]
      constructor
      · refine ⟨incarnation, hinc.trans hfind, hrights.trans hview, ?_⟩
        rcases hcases with ⟨hkept, -⟩ | ⟨hnew, rfl, heq⟩
        · exact Or.inl hkept
        · have hle := hrest.next_le
          exact Or.inr ⟨hnew, le_rfl, by omega⟩
      · intro other hmem
        obtain ⟨number, hnumber, hentry, hkept | ⟨hnew, hge, hlt⟩⟩ := hrest.entry other hmem
        · exact ⟨number, hnumber, hentry, Or.inl hkept⟩
        · exact ⟨number, hnumber, hentry, Or.inr ⟨hnew, hnext.trans hge, hlt⟩⟩
    · intro a ha b hb hnewA hnewB heq
      rcases mem_cons.1 ha with rfl | ha'
      · rcases mem_cons.1 hb with rfl | hb'
        · rfl
        · exact absurd heq (hlater b hb' hnewA hnewB)
      · rcases mem_cons.1 hb with rfl | hb'
        · exact absurd heq.symm (hlater a ha' hnewB hnewA)
        · exact hrest.fresh a ha' b hb' hnewA hnewB heq

/-! ## Invariants -/

/-- The incarnations and the rights view of some users. -/
structure PublishedUsers (users : Users) (publication : Publication) : Prop where
  present : ∀ name, (publication.incarnations.find name).isSome = (users.users.find name).isSome
  below : ∀ name incarnation, publication.incarnations.find name = some incarnation →
    incarnation < publication.nextIncarnation
  injective : ∀ name name' incarnation, publication.incarnations.find name = some incarnation →
    publication.incarnations.find name' = some incarnation → name = name'
  rights : ∀ name, publication.rights.find name = (users.users.find name).bind fun user =>
    (publication.incarnations.find name).map fun incarnation => ⟨incarnation, user.grants⟩

namespace UserRegistry

/-- What the registry has published. -/
def publication (registry : UserRegistry) : Publication :=
  ⟨registry.incarnations, registry.nextIncarnation, registry.rights⟩

/-- What holds of a registry between two calls. -/
structure Inv (registry : UserRegistry) : Prop where
  names : registry.users.NamesValid
  file : encodeUsers registry.users = .ok registry.file
  manager : registry.users.HasManager
  published : PublishedUsers registry.users registry.publication

variable {registry : UserRegistry}

/-- How a publication that is prepared continues the one before it. -/
structure Continues (before : Publication) (after : Publication) : Prop where
  next_le : before.nextIncarnation ≤ after.nextIncarnation
  kept : ∀ name incarnation, before.incarnations.find name = some incarnation →
    (after.incarnations.find name).isSome → after.incarnations.find name = some incarnation
  origin : ∀ name incarnation, after.incarnations.find name = some incarnation →
    before.incarnations.find name = some incarnation ∨ before.nextIncarnation ≤ incarnation

theorem prepareLocked_spec (registry : UserRegistry) (next : Users)
    (hbelow : ∀ name incarnation, registry.incarnations.find name = some incarnation →
      incarnation < registry.nextIncarnation)
    (hinj : ∀ name name' incarnation, registry.incarnations.find name = some incarnation →
      registry.incarnations.find name' = some incarnation → name = name') :
    PublishedUsers next (registry.prepareLocked next) ∧
      Continues registry.publication (registry.prepareLocked next) := by
  have hprepared := prepared_prepareEntries registry.incarnations next.users.ascending
    ⟨.empty, registry.nextIncarnation, .empty⟩
  change Prepared _ _ _ (registry.prepareLocked next) at hprepared
  generalize registry.prepareLocked next = after at hprepared ⊢
  have habsent : ∀ name, next.users.find name = none →
      after.incarnations.find name = none ∧ after.rights.find name = none := by
    intro name hnone
    refine hprepared.other name fun entry hmem heq => ?_
    rw [find_eq_none_iff] at hnone
    exact hnone entry.2 (by rw [← heq]; exact hmem)
  -- a name that is found is that of an entry, and so its number is kept or new
  have hentry : ∀ name incarnation, after.incarnations.find name = some incarnation →
      ∃ user, (name, user) ∈ next.users.entries ∧
        (registry.incarnations.find name = some incarnation ∨
          registry.incarnations.find name = none ∧ registry.nextIncarnation ≤ incarnation ∧
            incarnation < after.nextIncarnation) := by
    intro name incarnation hfind
    cases hname : next.users.find name with
    | none =>
      rw [(habsent name hname).1] at hfind
      cases hfind
    | some user =>
      have hmem := (find_eq_some_iff ..).1 hname
      obtain ⟨number, hnumber, -, hcase⟩ := hprepared.entry _ hmem
      rw [hfind, Option.some.injEq] at hnumber
      subst hnumber
      exact ⟨user, hmem, hcase⟩
  refine ⟨⟨fun name => ?_, fun name incarnation hfind => ?_,
    fun name name' incarnation hfind hfind' => ?_, fun name => ?_⟩,
    ⟨hprepared.next_le, fun name incarnation hkept hsome => ?_, fun name incarnation hfind => ?_⟩⟩
  · cases hname : next.users.find name with
    | none =>
      rw [(habsent name hname).1]
      rfl
    | some user =>
      obtain ⟨number, hnumber, -⟩ := hprepared.entry _ ((find_eq_some_iff ..).1 hname)
      rw [hnumber]
      rfl
  · obtain ⟨user, -, hkept | ⟨-, -, hlt⟩⟩ := hentry name incarnation hfind
    · exact (hbelow name incarnation hkept).trans_le hprepared.next_le
    · exact hlt
  · obtain ⟨user, hmem, hcase⟩ := hentry name incarnation hfind
    obtain ⟨user', hmem', hcase'⟩ := hentry name' incarnation hfind'
    rcases hcase with hkept | ⟨hnew, hge, -⟩
    · rcases hcase' with hkept' | ⟨-, hge', -⟩
      · exact hinj name name' incarnation hkept hkept'
      · exact absurd (hbelow name incarnation hkept) (not_lt.2 hge')
    · rcases hcase' with hkept' | ⟨hnew', -, -⟩
      · exact absurd (hbelow name' incarnation hkept') (not_lt.2 hge)
      · exact hprepared.fresh _ hmem _ hmem' hnew hnew' (hfind.trans hfind'.symm)
  · cases hname : next.users.find name with
    | none => rw [(habsent name hname).2, bind_none]
    | some user =>
      obtain ⟨number, hnumber, hview, -⟩ :=
        hprepared.entry _ ((find_eq_some_iff ..).1 hname)
      rw [hview, hnumber]
      rfl
  · obtain ⟨incarnation', hfind⟩ := isSome_iff_exists.1 hsome
    obtain ⟨user, -, hkept' | ⟨hnew, -⟩⟩ := hentry name incarnation' hfind
    · rw [hfind, ← hkept']
      exact hkept
    · exact absurd (hkept.symm.trans hnew) (by simp)
  · obtain ⟨user, -, hkept | ⟨-, hge, -⟩⟩ := hentry name incarnation hfind
    · exact Or.inl hkept
    · exact Or.inr hge

end UserRegistry

/-! ## Changes keep the rules -/

section Changes

variable {users : Users}

theorem Users.hasManager_iff :
    users.HasManager ↔ ∃ name user, users.users.find name = some user ∧ user.managesUsers = true := by
  constructor
  · rintro ⟨⟨name, user⟩, hmem, hmanages⟩
    exact ⟨name, user, (find_eq_some_iff ..).2 hmem, hmanages⟩
  · rintro ⟨name, user, hfind, hmanages⟩
    exact ⟨(name, user), (find_eq_some_iff ..).1 hfind, hmanages⟩

/-- Grants on tables with valid names. -/
def GrantsValid (grants : Grants) : Prop :=
  ∀ table right, grants.find table = some right → isValidGrantTable table = true

theorem Users.namesValid_iff : users.NamesValid ↔ ∀ name user, users.users.find name = some user →
    isValidUserName name = true ∧ GrantsValid user.grants := by
  constructor
  · intro h name user hfind
    have hmem := (find_eq_some_iff ..).1 hfind
    refine ⟨h.names _ hmem, fun table right hgrant => ?_⟩
    exact h.tables _ hmem _ ((find_eq_some_iff ..).1 hgrant)
  · intro h
    refine ⟨fun entry hmem => ?_, fun entry hmem grant hgrant => ?_⟩
    · exact (h _ _ ((find_eq_some_iff ..).2 hmem)).1
    · exact (h _ _ ((find_eq_some_iff ..).2 hmem)).2 _ _ ((find_eq_some_iff ..).2 hgrant)

/-- What the rules ask of the users. -/
def Users.Ruled (users : Users) : Prop := users.NamesValid ∧ users.HasManager

theorem Users.find_set (users : Users) (name other : String) (user : User) :
    (users.set name user).users.find other =
      if other = name then some user else users.users.find other :=
  find_assign ..

theorem Users.NamesValid.set (h : users.NamesValid) {name : String} {user : User}
    (hname : isValidUserName name = true) (hgrants : GrantsValid user.grants) :
    (users.set name user).NamesValid := by
  rw [Users.namesValid_iff] at h ⊢
  intro other found hother
  rw [Users.find_set] at hother
  split at hother
  · next heq =>
    cases hother
    exact ⟨heq ▸ hname, hgrants⟩
  · exact h other found hother

/-- A user replaced by one who manages users if the old one did. -/
theorem Users.HasManager.set (h : users.HasManager) {name : String} {user : User}
    (hmanages : ∀ old, users.users.find name = some old → old.managesUsers = true →
      user.managesUsers = true) : (users.set name user).HasManager := by
  obtain ⟨manager, managing, hfind, hmanaging⟩ := Users.hasManager_iff.1 h
  rw [Users.hasManager_iff]
  by_cases heq : manager = name
  · subst heq
    exact ⟨manager, user, by rw [Users.find_set, if_pos rfl], hmanages managing hfind hmanaging⟩
  · exact ⟨manager, managing, by rw [Users.find_set, if_neg heq, hfind], hmanaging⟩

/-- Grants on no tables but those of the others. -/
def Grants.Within (grants others : Grants) : Prop :=
  ∀ table, (grants.find table).isSome → (others.find table).isSome

section Grants

variable {grants others : Grants} {table : String} {right : Right}

theorem GrantsValid.within (h : GrantsValid others) (hwithin : grants.Within others) :
    GrantsValid grants := by
  intro table right hfind
  obtain ⟨held, hheld⟩ := isSome_iff_exists.1 (hwithin table (by rw [hfind]; rfl))
  exact h table held hheld

theorem GrantsValid.assign (h : GrantsValid grants) (htable : isValidGrantTable table = true) :
    GrantsValid (grants.assign table right) := by
  intro other held hfind
  rw [find_assign] at hfind
  split at hfind
  · next heq => exact heq ▸ htable
  · exact h other held hfind

theorem GrantsValid.grantRight (h : GrantsValid grants) (htable : isValidGrantTable table = true) :
    GrantsValid (grantRight grants table right) := by
  unfold ChunkDb.grantRight
  split
  · split
    · exact h.assign htable
    · exact h
  · exact h.assign htable

theorem Grants.within_remove : Grants.Within (grants.remove table) grants := by
  intro name h
  rw [find_remove] at h
  split at h
  · cases h
  · exact h

theorem Grants.within_revokeRight : Grants.Within (revokeRight grants table right) grants := by
  unfold revokeRight
  split
  next held hfind =>
    split
    · exact fun _ h => h
    · split
      · exact within_remove
      · intro name h
        rw [find_assign] at h
        split at h
        next heq =>
          rw [heq, hfind]
          rfl
        · exact h
  · exact fun _ h => h

end Grants

theorem existingUser_eq_ok {name : String} {user : User} :
    existingUser users name = .ok user ↔ users.users.find name = some user := by
  unfold existingUser
  cases users.users.find name <;> simp

/-- What an update does to the users: one is new, one is edited, one is gone, or every one has
lost its grant on a table. -/
inductive UserUpdate.Changes (users : Users) : UserUpdate → Users → Prop
  | created {name : String} {verifier : Verifier} {managesUsers ifNotExists : Bool}
      (hnone : users.users.find name = none) :
      Changes users (.create name verifier managesUsers ifNotExists)
        (users.set name ⟨verifier, managesUsers, .empty⟩)
  | edited {update : UserUpdate} {name : String} {old user : User}
      (hold : users.users.find name = some old)
      (hgrants : user.grants.Within old.grants ∨ ∃ table right, update = .grant name table right ∧
        user.grants = grantRight old.grants table right)
      (hmanages : user.managesUsers = old.managesUsers ∨ (users.set name user).HasManager) :
      Changes users update (users.set name user)
  | dropped {name : String} {ifExists : Bool}
      (hmanager : ({ users with users := users.users.remove name } : Users).HasManager) :
      Changes users (.drop name ifExists) { users with users := users.users.remove name }
  | forgot {table : String} :
      Changes users (.forgetTable table) { users with
        users := users.users.mapValues fun _ user =>
          { user with grants := user.grants.remove table } }

variable {registry : UserRegistry} {update : UserUpdate} {next : Users}

theorem UserUpdate.changes_of_change (hchange : update.change registry = .ok (some next)) :
    update.Changes registry.users next := by
  have hsame : ∀ {grants : Grants}, grants.Within grants := fun _ h => h
  cases update with
  | create name verifier managesUsers ifNotExists =>
    simp only [UserUpdate.change] at hchange
    split at hchange
    · split at hchange <;> cases hchange
    · next hnone =>
      cases hchange
      exact .created hnone
  | drop name ifExists =>
    simp only [UserUpdate.change] at hchange
    split at hchange
    · split at hchange <;> cases hchange
    · obtain ⟨_, hmanager, hchange⟩ := bind_eq_ok.1 hchange
      cases hchange
      exact .dropped ((require_eq_ok _ _).1 hmanager)
  | forgetTable table =>
    cases hchange
    exact .forgot
  | setOwnVerifier name incarnation verifier =>
    simp only [UserUpdate.change] at hchange
    split at hchange
    · obtain ⟨user, huser, hchange⟩ := bind_eq_ok.1 hchange
      cases hchange
      exact .edited (existingUser_eq_ok.1 huser) (.inl hsame) (.inl rfl)
    · cases hchange
  | setVerifier name verifier =>
    obtain ⟨user, huser, hchange⟩ := bind_eq_ok.1 hchange
    cases hchange
    exact .edited (existingUser_eq_ok.1 huser) (.inl hsame) (.inl rfl)
  | setManagesUsers name managesUsers =>
    obtain ⟨user, huser, hchange⟩ := bind_eq_ok.1 hchange
    obtain ⟨_, hmanager, hchange⟩ := bind_eq_ok.1 hchange
    cases hchange
    exact .edited (existingUser_eq_ok.1 huser) (.inl hsame) (.inr ((require_eq_ok _ _).1 hmanager))
  | grant name table right =>
    obtain ⟨user, huser, hchange⟩ := bind_eq_ok.1 hchange
    cases hchange
    exact .edited (existingUser_eq_ok.1 huser) (.inr ⟨table, right, rfl, rfl⟩) (.inl rfl)
  | revoke name table right =>
    obtain ⟨user, huser, hchange⟩ := bind_eq_ok.1 hchange
    cases hchange
    exact .edited (existingUser_eq_ok.1 huser) (.inl Grants.within_revokeRight) (.inl rfl)

/-- A change that is not refused keeps the rules. -/
theorem UserUpdate.Changes.ruled (hchange : update.Changes users next) (h : users.Ruled)
    (hcheck : update.precheck = .ok ()) : next.Ruled := by
  have hnames := Users.namesValid_iff.1 h.1
  cases hchange with
  | @created name _ _ _ hnone =>
    refine ⟨h.1.set ((require_eq_ok _ _).1 hcheck) (fun table right hfind => ?_),
      h.2.set fun old hold => ?_⟩
    · exact absurd hfind (by simp)
    · exact absurd (hnone.symm.trans hold) (by simp)
  | @edited _ name old user hold hgrants hmanages =>
    obtain ⟨hname, hvalid⟩ := hnames name old hold
    constructor
    · refine h.1.set hname ?_
      rcases hgrants with hwithin | ⟨table, right, rfl, heq⟩
      · exact hvalid.within hwithin
      · rw [heq]
        exact hvalid.grantRight ((require_eq_ok _ _).1 hcheck)
    · rcases hmanages with heq | hmanager
      · refine h.2.set fun found hfound hmanaging => ?_
        cases hold.symm.trans hfound
        rw [heq, hmanaging]
      · exact hmanager
  | @dropped name _ hmanager =>
    refine ⟨?_, hmanager⟩
    rw [Users.namesValid_iff]
    intro other found hother
    rw [find_remove] at hother
    split at hother
    · cases hother
    · exact hnames other found hother
  | @forgot table =>
    obtain ⟨manager, managing, hfind, hmanaging⟩ := Users.hasManager_iff.1 h.2
    constructor
    · rw [Users.namesValid_iff]
      intro other found hother
      rw [find_mapValues, map_eq_some_iff] at hother
      obtain ⟨user, huser, rfl⟩ := hother
      exact (hnames other user huser).imp_right fun hvalid => hvalid.within Grants.within_remove
    · rw [Users.hasManager_iff]
      refine ⟨manager, { managing with grants := managing.grants.remove table }, ?_, hmanaging⟩
      rw [find_mapValues, hfind, map_some]

end Changes

/-! ## Calls -/

namespace UserRegistry

variable {registry : UserRegistry} {update : UserUpdate} {outcome : UpdateOutcome}

/-- A call leaves the registry as it was, or installs a change that was written. -/
theorem call_cases (registry : UserRegistry) (update : UserUpdate) (outcome : UpdateOutcome) :
    (registry.call update outcome).2 = registry ∨ ∃ next bytes, update.precheck = .ok () ∧
      update.change registry = .ok (some next) ∧ encodeUsers next = .ok bytes ∧
      (registry.call update outcome).2
        = { registry with file := bytes }.commitLocked next (registry.prepareLocked next) := by
  unfold call
  split
  · next registry' hcall =>
    obtain ⟨hcheck, hcall⟩ := check_bind_eq_ok.1 hcall
    rw [updateIf] at hcall
    obtain ⟨-, hcall⟩ := check_bind_eq_ok.1 hcall
    obtain ⟨-, hcall⟩ := check_bind_eq_ok.1 hcall
    obtain ⟨change, hchange, hcall⟩ := bind_eq_ok.1 hcall
    cases change with
    | none =>
      cases hcall
      exact Or.inl rfl
    | some next =>
      obtain ⟨bytes, hbytes, hcall⟩ := bind_eq_ok.1 hcall
      obtain ⟨-, hcall⟩ := check_bind_eq_ok.1 hcall
      cases hcall
      exact Or.inr ⟨next, bytes, hcheck, hchange, hbytes, rfl⟩
  · exact Or.inl rfl

/-- What a call does to the publication. -/
theorem Inv.call (h : registry.Inv) (update : UserUpdate) (outcome : UpdateOutcome) :
    (registry.call update outcome).2.Inv ∧
      Continues registry.publication (registry.call update outcome).2.publication := by
  rcases registry.call_cases update outcome with heq | ⟨next, bytes, hcheck, hchange, hbytes, heq⟩
  · rw [heq]
    exact ⟨h, le_rfl, fun _ _ hfind _ => hfind, fun _ _ hfind => Or.inl hfind⟩
  · obtain ⟨hpublished, hcontinues⟩ :=
      registry.prepareLocked_spec next h.published.below h.published.injective
    obtain ⟨hnames, hmanager⟩ :=
      (UserUpdate.changes_of_change hchange).ruled ⟨h.names, h.manager⟩ hcheck
    rw [heq]
    exact ⟨⟨hnames, hbytes, hmanager, hpublished⟩, hcontinues⟩

/-- A registry right after its constructor. -/
theorem inv_installed {users : Users} {file : Bytes} {readOnly : Bool} (hruled : users.Ruled)
    (hfile : encodeUsers users = .ok file) :
    (UserRegistry.installLocked ⟨readOnly, file, users, .empty, 1, 1, .empty⟩
      (UserRegistry.prepareLocked ⟨readOnly, file, users, .empty, 1, 1, .empty⟩ users)).Inv := by
  obtain ⟨hpublished, -⟩ := UserRegistry.prepareLocked_spec
    ⟨readOnly, file, users, .empty, 1, 1, .empty⟩ users nofun
    nofun
  exact ⟨hruled.1, hfile, hruled.2, hpublished⟩

theorem inv_created {name : String} {verifier : Verifier} {secret : Bytes32}
    (h : created name verifier secret = .ok registry) : registry.Inv := by
  simp only [created, bind_eq_ok] at h
  obtain ⟨_, hname, bytes, hbytes, h⟩ := h
  cases h
  rw [requireUserName, require_eq_ok] at hname
  have hfind : ∀ (other : String) (user : User), (empty.assign name
      ⟨verifier, true, empty.assign kEveryTable .admin⟩).find other = some user →
      other = name ∧ user = ⟨verifier, true, empty.assign kEveryTable .admin⟩ := by
    intro other user hfind
    rw [find_assign] at hfind
    split at hfind
    · next heq =>
      cases hfind
      exact ⟨heq, rfl⟩
    · cases hfind
  refine inv_installed ⟨?_, ?_⟩ hbytes
  · rw [Users.namesValid_iff]
    intro other user hother
    obtain ⟨rfl, rfl⟩ := hfind other user hother
    refine ⟨hname, fun table right hgrant => ?_⟩
    rw [find_assign] at hgrant
    split at hgrant
    · next heq =>
      rw [heq]
      decide
    · cases hgrant
  · rw [Users.hasManager_iff]
    exact ⟨name, _, find_assign_self .., rfl⟩

/-- A registry opened on the file of another one has its users. -/
theorem Inv.opened (h : registry.Inv) {readOnly : Bool} {registry' : UserRegistry}
    (hopened : UserRegistry.opened registry.file readOnly = .ok registry') : registry'.Inv := by
  rw [UserRegistry.opened, decodeUsers_of_encodeUsers h.names h.file] at hopened
  cases hopened
  exact inv_installed ⟨h.names, h.manager⟩ h.file

end UserRegistry

/-! ## Runs -/

namespace UserRun

variable {states : ℕ → UserRegistry}

theorem calls (h : UserRun states) (k : ℕ) :
    ∃ update outcome, states (k + 1) = ((states k).call update outcome).2 := by
  cases h with
  | created _ hcall => exact hcall k
  | opened _ _ _ hcall => exact hcall k

theorem inv_of_start (hstart : (states 0).Inv)
    (hcall : ∀ k, ∃ update outcome, states (k + 1) = ((states k).call update outcome).2) (k : ℕ) :
    (states k).Inv := by
  induction k with
  | zero => exact hstart
  | succ k ih =>
    obtain ⟨update, outcome, heq⟩ := hcall k
    rw [heq]
    exact (ih.call update outcome).1

theorem inv (h : UserRun states) (k : ℕ) : (states k).Inv := by
  -- the first state by induction on the processes
  induction h generalizing k with
  | created hcreated hcall => exact inv_of_start (UserRegistry.inv_created hcreated) hcall k
  | opened _ last hopened hcall hearlier =>
    exact inv_of_start ((hearlier last).opened hopened) hcall k

theorem continues (h : UserRun states) (k : ℕ) :
    UserRegistry.Continues (states k).publication (states (k + 1)).publication := by
  obtain ⟨update, outcome, heq⟩ := h.calls k
  rw [heq]
  exact ((h.inv k).call update outcome).2

theorem next_le (h : UserRun states) {a b : ℕ} (hab : a ≤ b) :
    (states a).nextIncarnation ≤ (states b).nextIncarnation := by
  induction b, hab using Nat.le_induction with
  | base => exact le_rfl
  | succ b _ ih => exact ih.trans (h.continues b).next_le

/-- A number from before a state was held, from that state on, by the user who holds it now. -/
theorem held_since (h : UserRun states) {a b : ℕ} (hab : a ≤ b) {name : String} {incarnation : ℕ}
    (hold : incarnation < (states a).nextIncarnation)
    (hfind : (states b).incarnations.find name = some incarnation) :
    ∀ c, a ≤ c → c ≤ b → (states c).incarnations.find name = some incarnation := by
  induction b, hab using Nat.le_induction with
  | base =>
    intro c hac hca
    rwa [le_antisymm hca hac]
  | succ b hab ih =>
    have hbefore : (states b).incarnations.find name = some incarnation := by
      rcases (h.continues b).origin name incarnation hfind with hkept | hnew
      · exact hkept
      · exact absurd (hold.trans_le (h.next_le hab)) (not_lt.2 hnew)
    intro c hac hcb
    rcases Nat.lt_or_ge b c with hlt | hle
    · rwa [le_antisymm hcb hlt]
    · exact ih hbefore c hac hle

/-- A user who stays keeps its number. -/
theorem kept_while_present (h : UserRun states) {a b : ℕ} (hab : a ≤ b) {name : String}
    {incarnation : ℕ} (hfind : (states a).incarnations.find name = some incarnation)
    (hpresent : ∀ c, a ≤ c → c ≤ b → ((states c).users.users.find name).isSome) :
    (states b).incarnations.find name = some incarnation := by
  induction b, hab using Nat.le_induction with
  | base => exact hfind
  | succ b hab ih =>
    have hbefore := ih fun c hac hcb => hpresent c hac (hcb.trans b.le_succ)
    refine (h.continues b).kept name incarnation hbefore ?_
    exact ((h.inv (b + 1)).published.present name).trans (hpresent (b + 1) (hab.trans b.le_succ) le_rfl)

/-- In every state the file holds the users, some user manages users, exactly the users have
an incarnation, and the rights view shows the incarnation and the grants of each user and
nothing else.  A user who stays keeps its incarnation; and whoever has, later on, the number
that a user had is that same user, who has been there with that number all the time. -/
theorem registry_invariant (h : UserRun states) (a : ℕ) :
    decodeUsers (states a).file = .ok (states a).users ∧ (states a).users.HasManager ∧
      (∀ name, ((states a).incarnations.find name).isSome
        = ((states a).users.users.find name).isSome) ∧
      (∀ name, (states a).rights.find name = ((states a).users.users.find name).bind fun user =>
        ((states a).incarnations.find name).map fun incarnation => ⟨incarnation, user.grants⟩) ∧
      ∀ name incarnation, (states a).incarnations.find name = some incarnation → ∀ b, a ≤ b →
        ((∀ c, a ≤ c → c ≤ b → ((states c).users.users.find name).isSome) →
          (states b).incarnations.find name = some incarnation) ∧
        ∀ other, (states b).incarnations.find other = some incarnation → other = name ∧
          ∀ c, a ≤ c → c ≤ b → (states c).incarnations.find name = some incarnation := by
  have hinv := h.inv a
  refine ⟨decodeUsers_of_encodeUsers hinv.names hinv.file, hinv.manager, hinv.published.present,
    hinv.published.rights, fun name incarnation hfind b hab =>
      ⟨h.kept_while_present hab hfind, fun other hother => ?_⟩⟩
  have hold := hinv.published.below name incarnation hfind
  have hsince := h.held_since hab hold hother
  obtain rfl := hinv.published.injective other name incarnation (hsince a le_rfl hab) hfind
  exact ⟨rfl, hsince⟩

end UserRun

/-! ## A user dropped and created again -/

/-- A verifier. -/
def sampleVerifier : Verifier :=
  ⟨kMinIterations, le_rfl, by decide, List.replicate 16 1, ⟨List.replicate 32 2, rfl⟩,
    ⟨List.replicate 32 3, rfl⟩⟩

/-- The registry of a new data directory with the user `ada`. -/
def adaRegistry : UserRegistry :=
  match UserRegistry.created "ada" sampleVerifier ⟨List.replicate 32 4, rfl⟩ with
  | .ok registry => registry
  | .error _ => ⟨true, [], ⟨⟨List.replicate 32 4, rfl⟩, .empty⟩, .empty, 1, 1, .empty⟩

theorem created_adaRegistry :
    UserRegistry.created "ada" sampleVerifier ⟨List.replicate 32 4, rfl⟩ = .ok adaRegistry := by
  obtain ⟨registry, hcreated, -⟩ := Fallible.map_eq_ok (show (UserRegistry.created "ada"
    sampleVerifier ⟨List.replicate 32 4, rfl⟩).map (fun _ => ()) = .ok () by decide +kernel)
  rw [adaRegistry, hcreated]

/-- `bob` is created, dropped and created again, and then not once more. -/
def bobScript : ℕ → UserUpdate
  | 1 => .drop "bob" false
  | _ => .create "bob" sampleVerifier false false

/-- The states of the registry along that script. -/
def bobStates : ℕ → UserRegistry
  | 0 => adaRegistry
  | k + 1 => ((bobStates k).call (bobScript k) ⟨.ok (), .ok ()⟩).2

theorem UserRun.registry_invariant_bob :
    UserRun bobStates ∧ (bobStates 1).incarnations.find "bob" = some 2 ∧
      ((bobStates 3).users.users.find "bob").isSome ∧
      (bobStates 3).incarnations.find "bob" ≠ some 2 := by
  have hrun : UserRun bobStates := .created created_adaRegistry fun k => ⟨_, _, rfl⟩
  have hfirst : (bobStates 1).incarnations.find "bob" = some 2 := by decide +kernel
  have habsent : (bobStates 2).incarnations.find "bob" = none := by decide +kernel
  have hagain : ((bobStates 3).users.users.find "bob").isSome := by decide +kernel
  obtain ⟨-, -, -, -, hunique⟩ := hrun.registry_invariant 1
  refine ⟨hrun, hfirst, hagain, fun hsame => ?_⟩
  have hheld := ((hunique "bob" 2 hfirst 3 (by decide)).2 "bob" hsame).2 2 (by decide) (by decide)
  rw [habsent] at hheld
  cases hheld

end ChunkDb
