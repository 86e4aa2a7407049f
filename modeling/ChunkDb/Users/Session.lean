/-
# The user of a session

A session keeps its user as of a generation of the registry (`CurrentUser`).  The generation
is loaded without the lock, so updates may come before the user is found.
-/
import ChunkDb.Users.Registry

namespace ChunkDb

/-! ## Generations -/

variable {states : ℕ → UserRegistry}

/-- Every change moves the generation. -/
theorem UserRun.generation_lt (h : UserRun states) {a b : ℕ} (hab : a ≤ b) :
    states b = states a ∨ (states a).generation < (states b).generation := by
  induction b, hab using Nat.le_induction with
  | base => exact .inl rfl
  | succ b _ ih =>
    obtain ⟨update, outcome, heq⟩ := h.calls b
    rcases (states b).call_cases update outcome with hsame | ⟨_, _, -, -, -, hnext⟩
    · rwa [heq, hsame]
    · rw [heq, hnext]
      right
      rcases ih with ih | ih
      · exact ih ▸ Nat.lt_succ_self _
      · exact Nat.lt_succ_of_lt ih

theorem UserRun.generation_zero (h : UserRun states) : (states 0).generation = 1 := by
  cases h with
  | created h =>
    obtain ⟨_, -, h⟩ := bind_eq_ok.1 (check_bind_eq_ok.1 h).2
    rw [← Except.ok.inj h]
    rfl
  | opened _ _ h =>
    obtain ⟨_, -, h⟩ := bind_eq_ok.1 h
    rw [← Except.ok.inj h]
    rfl

/-! ## Calls -/

/-- `FindIncarnation`. -/
def UserRegistry.findIncarnation (registry : UserRegistry) (name : String) : Option (User × ℕ) := do
  return (← registry.users.users.find name, ← registry.incarnations.find name)

/-- `user_generation` and `user_rights`. -/
structure SessionUser where
  generation : ℕ
  rights : Option User

namespace SessionUser

variable (name : String) (incarnation : ℕ)

/-- The user of the session; none where it is another incarnation. -/
def lookUp (registry : UserRegistry) : Option User :=
  ((registry.findIncarnation name).filter (·.2 = incarnation)).map (·.1)

/-- `CurrentUser`, with the registry at its two reads. -/
def currentUser (session : SessionUser) (loaded found : UserRegistry) : SessionUser :=
  if session.generation ≠ loaded.generation then
    ⟨loaded.generation, lookUp name incarnation found⟩
  else session

/-- The session after some calls, two reads each. -/
def calls (reads : ℕ → UserRegistry) : ℕ → SessionUser
  | 0 => ⟨0, none⟩
  | n + 1 => (calls reads n).currentUser name incarnation (reads (2 * n)) (reads (2 * n + 1))

theorem generation_calls (reads : ℕ → UserRegistry) (n : ℕ) :
    (calls name incarnation reads (n + 1)).generation = (reads (2 * n)).generation := by
  rw [calls, currentUser]
  split
  · rfl
  next hsame => exact not_not.mp hsame

/-- Every call returns the user as the registry has it at some time during the call. -/
theorem currentUser_spec (h : UserRun states) {reads : ℕ → ℕ} (hreads : Monotone reads) (n : ℕ) :
    ∃ k, reads (2 * n) ≤ k ∧ k ≤ reads (2 * n + 1) ∧
      (calls name incarnation (states ∘ reads) (n + 1)).rights
        = lookUp name incarnation (states k) := by
  rw [calls, currentUser]
  split
  · exact ⟨_, hreads (by omega), le_rfl, rfl⟩
  next hsame =>
    refine ⟨_, le_rfl, hreads (by omega), ?_⟩
    cases n with
    | zero => grind [h.generation_lt (reads 0).zero_le, h.generation_zero, calls]
    | succ n =>
      -- what is kept is of a state since the load of the last call
      obtain ⟨k, hload, hfind, hrights⟩ := currentUser_spec h hreads n
      rw [generation_calls] at hsame
      have hfirst := h.generation_lt hload
      have hlast := h.generation_lt (hfind.trans (hreads (by omega : _ ≤ 2 * (n + 1))))
      grind

theorem currentUser_spec_bob : ∃ k, 2 ≤ k ∧ k ≤ 3 ∧
    (calls "bob" 2 (bobStates ∘ id) 2).rights = lookUp "bob" 2 (bobStates k) :=
  currentUser_spec "bob" 2 (.created created_adaRegistry fun _ => ⟨_, _, rfl⟩) monotone_id 1

end SessionUser

end ChunkDb
