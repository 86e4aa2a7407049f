/-
# The right of a watch

A session's watch keeps a `ReadRightCheck`: the user and the incarnation the session is of,
the generation of the registry its right was last looked up at, and what came of it.  A lost
right is never looked up again.  Of the calls that change users only a `GRANT` to the very
user of the session, not dropped since, can give a lost right back; a user of the same name
created later has another incarnation.
-/
import ChunkDb.Users.Registry
import ChunkDb.Feed.FeedIo

open Option

namespace ChunkDb

/-- Whose right on which table a watch depends on. -/
structure WatchRight where
  user : String
  incarnation : ℕ
  table : String
  everyTableAdmin : Bool

namespace WatchRight

/-- The view gives the session's user a right on the table. -/
def readIn (right : WatchRight) (view : RightsView) : Bool :=
  match view.find right.user with
  | some entry =>
    entry.incarnation = right.incarnation && (rightOn entry.grants right.table).isSome
  | none => false

/-- What `Recheck` reads in a view. -/
def lookUp (right : WatchRight) (view : RightsView) : RightState :=
  match view.find right.user with
  | none => .noUser
  | some entry =>
    if entry.incarnation ≠ right.incarnation then .noUser
    else if (rightOn entry.grants right.table).isNone then .noRight
    else if right.everyTableAdmin ∧ (entry.grants.find kEveryTable).all (· < .admin) then .noRight
    else .held

variable {right : WatchRight} {view : RightsView}

theorem readIn_eq_true : right.readIn view = true ↔ ∃ entry, view.find right.user = some entry ∧
    entry.incarnation = right.incarnation ∧ (rightOn entry.grants right.table).isSome := by
  unfold readIn
  cases view.find right.user with
  | none => simp
  | some entry => simp

/-- A right that is found held is read in the view. -/
theorem readIn_of_lookUp (h : right.lookUp view = .held) : right.readIn view = true := by
  rw [readIn_eq_true]
  unfold lookUp at h
  split at h
  · cases h
  next entry hfind =>
    split at h
    · cases h
    next hincarnation =>
      split at h
      · cases h
      next hright =>
        refine ⟨entry, hfind, not_not.mp hincarnation, ?_⟩
        exact isSome_iff_ne_none.mpr (fun hnone => hright (by rw [hnone]; rfl))

/-- Without the session's user the view says so. -/
theorem lookUp_eq_noUser (h : ∀ entry, view.find right.user = some entry →
    entry.incarnation ≠ right.incarnation) : right.lookUp view = .noUser := by
  unfold lookUp
  split
  · rfl
  next entry hfind => rw [if_pos (h entry hfind)]

end WatchRight

/-- `ReadRightCheck`. -/
structure ReadRightCheck where
  right : WatchRight
  generation : ℕ
  state : RightState

/-- `ReadRightCheck::Recheck`, with the view it reads. -/
def ReadRightCheck.recheck (check : ReadRightCheck) (generation : ℕ) (view : RightsView) :
    ReadRightCheck :=
  { check with
    generation := generation
    state := if check.state ≠ .held then check.state else check.right.lookUp view }

/-! ## What updates do to a right -/

/-- The update grants something to the session's user, who is still there. -/
def Regrants (right : WatchRight) (registry : UserRegistry) : UserUpdate → Prop
  | .grant name _ _ =>
    name = right.user ∧ registry.incarnations.find right.user = some right.incarnation
  | _ => False

theorem isSome_rightOn (grants : Grants) (table : String) :
    (rightOn grants table).isSome =
      ((grants.find table).isSome || (grants.find kEveryTable).isSome) := by
  unfold rightOn
  cases grants.find table <;> cases grants.find kEveryTable <;> rfl

/-- Grants that name no more tables give no more rights. -/
theorem isSome_rightOn_mono {grants grants' : Grants} (h : grants'.Within grants) {table : String}
    (hright : (rightOn grants' table).isSome) : (rightOn grants table).isSome := by
  rw [isSome_rightOn, Bool.or_eq_true] at hright ⊢
  exact hright.imp (h table) (h kEveryTable)

section Change

variable {registry : UserRegistry} {update : UserUpdate} {users next : Users} {name other : String}
  {user : User}

/-- A user there before and after an update that is no grant to it has no more grants. -/
theorem UserUpdate.Changes.grants (hchange : update.Changes users next)
    (hgrant : ∀ table right, update ≠ .grant other table right)
    (hpresent : (users.users.find other).isSome) {found : User}
    (hfound : next.users.find other = some found) :
    ∃ old, users.users.find other = some old ∧ found.grants.Within old.grants := by
  have hsame : users.users.find other = some found →
      ∃ old, users.users.find other = some old ∧ found.grants.Within old.grants :=
    fun h => ⟨found, h, fun _ h => h⟩
  cases hchange with
  | @created name _ _ _ hnone =>
    rw [Users.find_set] at hfound
    split at hfound
    next heq =>
      rw [heq, hnone] at hpresent
      cases hpresent
    · exact hsame hfound
  | @edited _ name old user hold hgrants hmanages =>
    rw [Users.find_set] at hfound
    split at hfound
    next heq =>
      cases hfound
      refine ⟨old, heq ▸ hold, hgrants.resolve_right ?_⟩
      rintro ⟨table, right, hupdate, -⟩
      exact hgrant table right (heq ▸ hupdate)
    · exact hsame hfound
  | dropped hmanager =>
    rw [SortedMap.find_remove] at hfound
    split at hfound
    · cases hfound
    · exact hsame hfound
  | forgot =>
    rw [SortedMap.find_mapValues] at hfound
    obtain ⟨old, hold, rfl⟩ := map_eq_some_iff.1 hfound
    exact ⟨old, hold, Grants.within_remove⟩

/-- Whoever has an old incarnation after a call had it before. -/
theorem UserRegistry.Inv.incarnation_of_call (h : registry.Inv) {outcome : UpdateOutcome}
    {incarnation : ℕ} (hold : incarnation < registry.nextIncarnation)
    (hfind : (registry.call update outcome).2.incarnations.find name = some incarnation) :
    registry.incarnations.find name = some incarnation := by
  rcases (h.call update outcome).2.origin name incarnation hfind with hkept | hnew
  · exact hkept
  · exact absurd hold (Nat.not_lt.mpr hnew)

/-- The view shows a user with its incarnation and its grants. -/
theorem UserRegistry.Inv.of_find_rights (h : registry.Inv) {entry : RightsEntry}
    (hfind : registry.rights.find name = some entry) :
    registry.incarnations.find name = some entry.incarnation ∧
      ∃ user, registry.users.users.find name = some user ∧ entry.grants = user.grants := by
  have hrights := h.published.rights name
  change registry.rights.find name = _ at hrights
  rw [hfind] at hrights
  obtain ⟨user, huser, hmap⟩ := bind_eq_some_iff.1 hrights.symm
  obtain ⟨incarnation, hincarnation, rfl⟩ := map_eq_some_iff.1 hmap
  exact ⟨hincarnation, user, huser, rfl⟩

/-- A right that is read after an update that does not grant it back was read before. -/
theorem WatchRight.readIn_of_call {right : WatchRight} {outcome : UpdateOutcome}
    (h : registry.Inv) (hold : right.incarnation < registry.nextIncarnation)
    (hregrant : ¬Regrants right registry update)
    (hread : right.readIn (registry.call update outcome).2.rights = true) :
    right.readIn registry.rights = true := by
  rcases registry.call_cases update outcome with heq | ⟨next, bytes, hcheck, hchange, hbytes, heq⟩
  · rw [heq] at hread
    exact hread
  · obtain ⟨entry, hentry, hincarnation, hright⟩ := WatchRight.readIn_eq_true.1 hread
    obtain ⟨hfind, user, huser, hgrants⟩ := (h.call update outcome).1.of_find_rights hentry
    rw [hincarnation] at hfind
    -- the user was there before, with the same incarnation
    have hbefore := h.incarnation_of_call hold hfind
    have hpresent : (registry.users.users.find right.user).isSome := by
      have hsame := h.published.present right.user
      change (registry.incarnations.find right.user).isSome = _ at hsame
      rw [← hsame, hbefore]
      rfl
    have husers : next.users.find right.user = some user := by
      rw [heq] at huser
      exact huser
    have hgrant : ∀ table granted, update ≠ .grant right.user table granted := by
      rintro table granted rfl
      exact hregrant ⟨rfl, hbefore⟩
    obtain ⟨old, hold', hmono⟩ :=
      (UserUpdate.changes_of_change hchange).grants hgrant hpresent husers
    rw [WatchRight.readIn_eq_true]
    have hview := h.published.rights right.user
    change registry.rights.find right.user = _ at hview
    have hpub : registry.publication.incarnations.find right.user = some right.incarnation :=
      hbefore
    rw [hold', hpub] at hview
    refine ⟨_, hview, rfl, ?_⟩
    rw [hgrants] at hright
    exact isSome_rightOn_mono hmono hright

end Change

end ChunkDb
