/-
# What admission to a table guarantees

One invariant carries the guarantees over every order of the calls' steps.  It says who
occupies the table: nobody, a call that waits for the leases to drain, or a call in the
exclusive section.  The counters are tallies over the calls, a lease is held only on a table
that is open or drains after it was open, and a call asleep at a count of zero has a
notification on its way.
-/
import ChunkDb.Admission

open Function

namespace ChunkDb

open TableCall

/-! ## The invariant -/

/-- Who occupies the table. -/
inductive Occupant
  | free
  | drain (a : ℕ) (found : TableState)
  | inside (a : ℕ)
  deriving DecidableEq

/-- Leases are admitted, or were when the waiting section began. -/
def Admits (t : TableAdmission) (o : Occupant) : Prop :=
  t.state = .kOpen ∨ ∃ b, o = .drain b .kOpen

/-- What the shared variables say of the occupant. -/
structure SharedInv (cancels : TableState → Prop) (t : TableAdmission) (o : Occupant) :
    Prop where
  busy : t.state = .kBusy ↔ o ≠ .free
  pinless : o ≠ .free → t.pins = 0
  store : t.state ≠ .kGone → (∀ a, o ≠ .inside a) → t.store ≠ none
  unfailed : (∀ p, cancels p → p = .kOpen) → Admits t o → t.failed = false

/-- What a call `a` that stands at `c` says of the shared variables and the occupant. -/
structure CallInv (t : TableAdmission) (o : Occupant) (a : ℕ) (c : TableCall) : Prop where
  mutex : t.mutex = some a ↔ c.Locks
  drains : ∀ found, c.Drains found ↔ o = .drain a found
  inside : c.Inside ↔ o = .inside a
  lease : c.HoldsLease → Admits t o
  value : ∀ store, c = .lease store → store = t.store

/-- What holds of a table and its calls after every step. -/
structure AdmissionInv (cancels : TableState → Prop) (t : TableAdmission) (o : Occupant) :
    Prop where
  leases : Tally (fun a => (t.calls a).leaseCount) t.leases
  pins : Tally (fun a => (t.calls a).pinCount) t.pins
  shared : SharedInv cancels t o
  call : ∀ a, CallInv t o a (t.calls a)
  wakes : ∀ a, (t.calls a).Sleeps → t.leases = 0 → ∃ r, (t.calls r).Wakes

variable {cancels : TableState → Prop} {t u : TableAdmission} {o o' : Occupant} {a b : ℕ}
  {c : TableCall} {found : TableState}

/-- A call that is not concerned keeps what it says as long as the shared variables and the
occupant do not come to concern it. -/
theorem CallInv.transfer (h : CallInv t o b c) (hmutex : u.mutex = some b ↔ t.mutex = some b)
    (hdrain : ∀ found, o' = .drain b found ↔ o = .drain b found)
    (hinside : o' = .inside b ↔ o = .inside b)
    (hlease : c.HoldsLease → Admits t o → Admits u o' ∧ u.store = t.store) :
    CallInv u o' b c where
  mutex := hmutex.trans h.mutex
  drains := fun found => (h.drains found).trans (hdrain found).symm
  inside := h.inside.trans hinside.symm
  lease := fun hc => (hlease hc (h.lease hc)).1
  value := by
    intro store hc
    have holds : c.HoldsLease := by rw [hc]; trivial
    rw [(hlease holds (h.lease holds)).2]
    exact h.value store hc

/-- What a call without a lease says. -/
theorem CallInv.quiet (hmutex : t.mutex = some a ↔ c.Locks)
    (hdrains : ∀ found, c.Drains found ↔ o = .drain a found) (hinside : c.Inside ↔ o = .inside a)
    (hlease : c.HoldsLease → False) (hvalue : ∀ store, c ≠ .lease store) : CallInv t o a c :=
  ⟨hmutex, hdrains, hinside, fun hc => (hlease hc).elim, fun store hc => (hvalue store hc).elim⟩

/-- Where the calls stand is none of the shared variables. -/
theorem SharedInv.setCalls (h : SharedInv cancels t o) (calls : ℕ → TableCall) :
    SharedInv cancels { t with calls := calls } o :=
  ⟨h.busy, h.pinless, h.store, h.unfailed⟩

theorem CallInv.setCalls (h : CallInv t o a c) (calls : ℕ → TableCall) :
    CallInv { t with calls := calls } o a c :=
  ⟨h.mutex, h.drains, h.inside, h.lease, h.value⟩

/-- A call that does not sleep stands after a notification where it stood. -/
theorem TableAdmission.calls_notifyAll (hat : t.calls a = c) (hc : c.wake = c) :
    t.notifyAll.calls a = c :=
  (congrArg wake hat).trans hc

namespace AdmissionInv

/-- A table just made is free. -/
theorem opened (store : ℕ) (health : Bool) :
    AdmissionInv cancels (TableAdmission.opened store health) .free where
  leases := Tally.zero
  pins := Tally.zero
  shared := {
    busy := by simp [TableAdmission.opened]
    pinless := fun h => absurd rfl h
    store := by simp [TableAdmission.opened]
    unfailed := fun _ _ => rfl }
  call := fun a => {
    mutex := by simp [TableAdmission.opened, TableCall.Locks]
    drains := by simp [TableAdmission.opened, TableCall.Drains]
    inside := by simp [TableAdmission.opened, TableCall.Inside]
    lease := fun h => h.elim
    value := by simp [TableAdmission.opened] }
  wakes := fun _ h => h.elim

/-! ## What the invariant says of one call -/

/-- A table that is not busy is free. -/
theorem free (h : AdmissionInv cancels t o) (hstate : t.state ≠ .kBusy) : o = .free := by
  by_contra hne
  exact hstate (h.shared.busy.mpr hne)

/-- Nobody sleeps on a table that is not busy. -/
theorem not_sleeps (h : AdmissionInv cancels t o) (hstate : t.state ≠ .kBusy) (b : ℕ) :
    ¬(t.calls b).Sleeps := by
  intro hsleeps
  obtain ⟨found, hdrains⟩ := drains_of_sleeps hsleeps
  have ho := ((h.call b).drains found).mp hdrains
  rw [h.free hstate] at ho
  cases ho

/-- A call inside the section leaves no room for a lease. -/
theorem not_admits_of_inside (h : AdmissionInv cancels t o) (ho : o = .inside a) : ¬Admits t o := by
  subst ho
  have hbusy : t.state = .kBusy := h.shared.busy.mpr (by simp)
  rintro (hopen | ⟨b, hb⟩)
  · rw [hbusy] at hopen
    cases hopen
  · cases hb

/-- A count of zero leaves no lease. -/
theorem not_holdsLease_of_zero (h : AdmissionInv cancels t o) (hzero : t.leases = 0) (b : ℕ) :
    ¬(t.calls b).HoldsLease := by
  intro hlease
  have hle := h.leases.le b
  rw [hzero, leaseCount_of_holdsLease hlease] at hle
  exact absurd hle (by decide)

/-! ## One call goes on -/

/-- A call goes on to `c` and the shared variables become those of `u`: what it counts it has
added, and what it and the others say of the shared variables and the occupant holds again. -/
theorem goTo (h : AdmissionInv cancels t o) (hu : u.calls = t.calls)
    (hleases : t.leases + c.leaseCount = u.leases + (t.calls a).leaseCount)
    (hpins : t.pins + c.pinCount = u.pins + (t.calls a).pinCount)
    (hshared : SharedInv cancels u o') (hcall : CallInv u o' a c)
    (hothers : ∀ b, b ≠ a → CallInv t o b (t.calls b) → CallInv u o' b (t.calls b))
    (hwakes : ∀ b, ((u.goTo a c).calls b).Sleeps → u.leases = 0 →
      ∃ r, ((u.goTo a c).calls r).Wakes) :
    AdmissionInv cancels (u.goTo a c) o' where
  leases := by
    have hnext := Tally.replace leaseCount h.leases a c hleases
    rw [← hu] at hnext
    exact hnext
  pins := by
    have hnext := Tally.replace pinCount h.pins a c hpins
    rw [← hu] at hnext
    exact hnext
  shared := hshared.setCalls _
  call := by
    refine (forall_update_iff u.calls
      (fun b d => CallInv (u.goTo a c) o' b d)).mpr ⟨hcall.setCalls _, ?_⟩
    intro b hb
    rw [hu]
    exact (hothers b hb (h.call b)).setCalls _
  wakes := hwakes

/-- The call that goes on neither sleeps next nor was on its way to a notification. -/
theorem wakes_goTo (h : AdmissionInv cancels t o) (hu : u.calls = t.calls)
    (hzero : u.leases = 0 → t.leases = 0) (hc : ¬c.Sleeps) (hat : ¬(t.calls a).Wakes) (b : ℕ)
    (hb : ((u.goTo a c).calls b).Sleeps) (hu0 : u.leases = 0) :
    ∃ r, ((u.goTo a c).calls r).Wakes := by
  by_cases hba : b = a
  · subst hba
    simp only [TableAdmission.goTo, update_self] at hb
    exact absurd hb hc
  · simp only [TableAdmission.goTo, update_of_ne hba, hu] at hb
    obtain ⟨r, hr⟩ := h.wakes b hb (hzero hu0)
    have hra : r ≠ a := fun heq => hat (heq ▸ hr)
    exact ⟨r, by simpa only [TableAdmission.goTo, update_of_ne hra, hu] using hr⟩

/-- After the step nobody sleeps when nobody else did and the call does not. -/
theorem not_sleeps_goTo (hu : u.calls = t.calls) (hc : ¬c.Sleeps)
    (hothers : ∀ b, b ≠ a → ¬(t.calls b).Sleeps) (b : ℕ) : ¬((u.goTo a c).calls b).Sleeps := by
  refine (forall_update_iff u.calls (fun _ d => ¬d.Sleeps)).mpr ⟨hc, ?_⟩ b
  intro b hb
  rw [hu]
  exact hothers b hb

section

variable (h : AdmissionInv cancels t o)

include h

/-- A call goes on alone: it counts, locks and occupies what it did. -/
theorem move (halike : c.Alike (t.calls a)) (hlease : c.HoldsLease → Admits t o)
    (hvalue : ∀ store, c = .lease store → store = t.store)
    (hwakes : ∀ b, ((t.goTo a c).calls b).Sleeps → t.leases = 0 →
      ∃ r, ((t.goTo a c).calls r).Wakes) : AdmissionInv cancels (t.goTo a c) o := by
  obtain ⟨hleases, hpins, hlocks, hdrains, hinside⟩ := halike
  refine h.goTo rfl (by rw [hleases]) (by rw [hpins]) h.shared ?_ (fun _ _ hb => hb) hwakes
  exact {
    mutex := (h.call a).mutex.trans hlocks.symm
    drains := fun found => (hdrains found).trans ((h.call a).drains found)
    inside := hinside.trans (h.call a).inside
    lease := hlease
    value := hvalue }

/-- A call goes on alone that comes to no lease, no sleep and from no notification. -/
theorem pass (hc : c.Alike (t.calls a) ∧ ¬c.HoldsLease ∧ (∀ store, c ≠ .lease store) ∧ ¬c.Sleeps
    ∧ ¬(t.calls a).Wakes) : AdmissionInv cancels (t.goTo a c) o := by
  obtain ⟨halike, hlease, hvalue, hsleeps, hwakes⟩ := hc
  exact h.move halike (fun hc => absurd hc hlease) (fun store hc => absurd hc (hvalue store))
    (h.wakes_goTo rfl id hsleeps hwakes)

/-- A notification moves sleeping calls on and nothing else. -/
theorem notifyAll : AdmissionInv cancels t.notifyAll o where
  leases := by
    have hsame : (fun b => (t.notifyAll.calls b).leaseCount) = fun b => (t.calls b).leaseCount := by
      funext b
      exact leaseCount_wake _
    rw [hsame]
    exact h.leases
  pins := by
    have hsame : (fun b => (t.notifyAll.calls b).pinCount) = fun b => (t.calls b).pinCount := by
      funext b
      exact pinCount_wake _
    rw [hsame]
    exact h.pins
  shared := h.shared.setCalls _
  call := fun b => {
    mutex := (h.call b).mutex.trans (locks_wake _).symm
    drains := fun found => (drains_wake _ found).trans ((h.call b).drains found)
    inside := (inside_wake _).trans (h.call b).inside
    lease := fun hb => (h.call b).lease ((holdsLease_wake _).mp hb)
    value := fun store hb => (h.call b).value store ((wake_eq_lease _ store).mp hb) }
  wakes := by
    intro b hb hzero
    obtain ⟨r, hr⟩ := h.wakes b (sleeps_of_wake hb) hzero
    exact ⟨r, (wakes_wake _).mpr hr⟩

/-- After a notification only a call that holds the mutex can be on its way to sleep. -/
theorem not_sleeps_notifyAll (hb : t.mutex ≠ some b) : ¬(t.notifyAll.calls b).Sleeps := by
  intro hsleeps
  exact hb ((h.call b).mutex.mpr (locks_of_wake_sleeps hsleeps))

/-! ## Steps that change what is shared -/

/-- `fetch_add` of `Acquire`. -/
theorem count (hat : t.calls a = .checked) :
    AdmissionInv cancels ({ t with leases := t.leases + 1 }.goTo a .counted) o := by
  have hcall := h.call a
  rw [hat] at hcall
  refine h.goTo rfl ?_ ?_ ⟨h.shared.busy, h.shared.pinless, h.shared.store, h.shared.unfailed⟩
    (.quiet hcall.mutex hcall.drains hcall.inside id nofun)
    (fun b _ hb => ⟨hb.mutex, hb.drains, hb.inside, hb.lease, hb.value⟩)
    (fun _ _ hzero => absurd hzero (Nat.succ_ne_zero t.leases))
  · simp [hat]
  · simp [hat]

/-- `fetch_sub` of `ReleaseLease`: the call that took the last count back is on its way to a
notification. -/
theorem fetchSub {waits : Bool} (hat : t.calls a = .releasing waits) :
    AdmissionInv cancels (t.fetchSub a waits) o := by
  have hcall := h.call a
  have hle := h.leases.le a
  rw [hat] at hcall
  simp only [hat, leaseCount] at hle
  have hpos : t.leases - 1 + 1 = t.leases := Nat.sub_add_cancel hle
  have hbool : ∀ P : TableCall → Prop, P (.released waits) → P .reopening → P .idle →
      P (if t.leases = 1 then .released waits else afterRelease waits) := by
    intro P hreleased hreopening hidle
    split_ifs
    · exact hreleased
    · cases waits
      · exact hidle
      · exact hreopening
  refine h.goTo rfl ?_ ?_ ⟨h.shared.busy, h.shared.pinless, h.shared.store, h.shared.unfailed⟩
    ?_ (fun b _ hb => ⟨hb.mutex, hb.drains, hb.inside, hb.lease, hb.value⟩) ?_
  · rw [hat]
    refine hbool (fun d => t.leases + d.leaseCount = t.leases - 1 + 1) ?_ ?_ ?_ <;> simp [hpos]
  · rw [hat]
    refine hbool (fun d => t.pins + d.pinCount = t.pins + 0) ?_ ?_ ?_ <;> simp
  · refine hbool (fun d => CallInv { t with leases := t.leases - 1 } o a d) ?_ ?_ ?_ <;>
      exact .quiet hcall.mutex hcall.drains hcall.inside id nofun
  · intro b _ hzero
    -- The count reached zero, so it was one before.
    have hone : t.leases = 1 := by
      have hzero' : t.leases - 1 = 0 := hzero
      omega
    refine ⟨a, ?_⟩
    simp [TableAdmission.goTo, hone]

/-- `PinForBackup`. -/
theorem pin (hat : t.calls a = .idle) (hstate : t.state ≠ .kBusy) :
    AdmissionInv cancels ({ t with pins := t.pins + 1 }.goTo a (.pin t.store)) o := by
  have hcall := h.call a
  rw [hat] at hcall
  have hfree := h.free hstate
  refine h.goTo rfl ?_ ?_ ⟨h.shared.busy, fun ho => absurd hfree ho, h.shared.store,
      h.shared.unfailed⟩
    (.quiet hcall.mutex hcall.drains hcall.inside id nofun)
    (fun b _ hb => ⟨hb.mutex, hb.drains, hb.inside, hb.lease, hb.value⟩)
    (h.wakes_goTo rfl id (fun hc => hc.elim) (by simp [hat]))
  · simp [hat]
  · simp [hat]

/-- `ReleaseBackupPin`, after the notification. -/
theorem unpin {store : Option ℕ} (hat : t.calls a = .pin store) :
    AdmissionInv cancels ({ t with pins := t.pins - 1 }.goTo a .idle) o := by
  have hcall := h.call a
  have hle := h.pins.le a
  rw [hat] at hcall
  simp only [hat, pinCount] at hle
  refine h.goTo rfl ?_ ?_ ⟨h.shared.busy, ?_, h.shared.store, h.shared.unfailed⟩
    (.quiet hcall.mutex hcall.drains hcall.inside id nofun)
    (fun b _ hb => ⟨hb.mutex, hb.drains, hb.inside, hb.lease, hb.value⟩)
    (h.wakes_goTo rfl id (fun hc => hc.elim) (by simp [hat]))
  · simp [hat]
  · simp only [hat, pinCount]
    omega
  · intro ho
    have hzero := h.shared.pinless ho
    change t.pins - 1 = 0
    omega

/-- `BeginExclusive` stores `kBusy`. -/
theorem beginExclusive (hat : t.calls a = .idle) (hmutex : t.mutex = none)
    (hstate : t.state ≠ .kBusy) (hpins : t.pins = 0) (hgone : t.state ≠ .kGone) :
    AdmissionInv cancels
      ({ t with state := .kBusy, mutex := some a }.goTo a (.draining t.state))
      (.drain a t.state) := by
  have hfree := h.free hstate
  subst hfree
  -- What the table admits is what it admitted before.
  have hadmits : Admits { t with state := .kBusy, mutex := some a } (.drain a t.state) →
      Admits t .free := by
    rintro (hopen | ⟨b, hb⟩)
    · cases hopen
    · exact .inl (Occupant.drain.inj hb).2
  refine h.goTo rfl ?_ ?_ ?_ ?_ ?_ ?_
  · simp [hat]
  · simp [hat]
  · exact {
      busy := by simp
      pinless := fun _ => hpins
      store := fun _ _ => h.shared.store hgone (by simp)
      unfailed := fun hcancels hadm => h.shared.unfailed hcancels (hadmits hadm) }
  · exact .quiet (by simp) (by simp) (by simp) id nofun
  · intro b hb hcall
    refine hcall.transfer ?_ ?_ ?_ ?_
    · simp [hmutex, Ne.symm hb]
    · simp [Ne.symm hb]
    · simp
    · rintro - (hopen | ⟨d, hd⟩)
      · exact ⟨.inr ⟨a, by rw [hopen]⟩, rfl⟩
      · cases hd
  · intro b hb _
    refine absurd hb (not_sleeps_goTo rfl (by simp) ?_ b)
    intro d _
    exact h.not_sleeps hstate d

/-- `BeginExclusive` drained the leases and moves the store out. -/
theorem enterSection (hat : t.calls a = .draining found) (hzero : t.leases = 0) :
    AdmissionInv cancels (t.enterSection a) (.inside a) := by
  have hcall := h.call a
  rw [hat] at hcall
  have ho : o = .drain a found := (hcall.drains found).mp rfl
  subst ho
  have hmutex : t.mutex = some a := hcall.mutex.mpr trivial
  refine h.goTo rfl ?_ ?_ ?_ ?_ ?_ ?_
  · simp [hat]
  · simp [hat]
  · exact {
      busy := by simpa using h.shared.busy.mpr (by simp)
      pinless := fun _ => h.shared.pinless (by simp)
      store := fun _ hinside => absurd rfl (hinside a)
      unfailed := by
        rintro - (hopen | ⟨b, hb⟩)
        · have hbusy : t.state = .kBusy := h.shared.busy.mpr (by simp)
          have hopen' : t.state = .kOpen := hopen
          rw [hbusy] at hopen'
          cases hopen'
        · cases hb }
  · exact .quiet (by simp) (by simp) (by simp) id nofun
  · intro b hb hcallb
    refine hcallb.transfer ?_ ?_ ?_ ?_
    · simp [hmutex, Ne.symm hb]
    · simp [Ne.symm hb]
    · simp [Ne.symm hb]
    · intro hlease
      exact absurd hlease (h.not_holdsLease_of_zero hzero b)
  · intro b hb _
    refine absurd hb (not_sleeps_goTo rfl (by simp) ?_ b)
    -- Only the one call that drains could sleep.
    intro d hd hsleeps
    obtain ⟨p, hp⟩ := drains_of_sleeps hsleeps
    exact hd (Occupant.drain.inj (((h.call d).drains p).mp hp)).1.symm

/-- `BeginExclusive` gives its drain up and notifies. -/
theorem cancelDrain (hat : t.calls a = .draining found) (hcancel : cancels found) :
    AdmissionInv cancels (t.cancelDrain a) .free := by
  have hcall := h.call a
  rw [hat] at hcall
  have ho : o = .drain a found := (hcall.drains found).mp rfl
  subst ho
  have hbusy : t.state = .kBusy := h.shared.busy.mpr (by simp)
  have hmutex : t.mutex = some a := hcall.mutex.mpr trivial
  have hatn := TableAdmission.calls_notifyAll hat rfl
  refine goTo (u := { t.notifyAll with state := .kOpen, mutex := none }) h.notifyAll rfl
    ?_ ?_ ?_ ?_ ?_ ?_
  · simp [hatn]
  · simp [hatn]
  · exact {
      busy := by simp
      pinless := fun ho => absurd rfl ho
      store := fun _ _ => h.shared.store (by rw [hbusy]; simp) (by simp)
      -- The section had found the table open, or it is not the one given up.
      unfailed := fun hcancels _ => h.shared.unfailed hcancels
        (.inr ⟨a, by rw [hcancels found hcancel]⟩) }
  · exact .quiet (by simp) (by simp) (by simp) id nofun
  · intro b hb hcallb
    refine hcallb.transfer ?_ ?_ ?_ ?_
    · have hne : t.notifyAll.mutex ≠ some b := by
        change t.mutex ≠ some b
        simpa [hmutex] using Ne.symm hb
      simp [hne]
    · simp [Ne.symm hb]
    · simp
    · exact fun _ _ => ⟨.inl rfl, rfl⟩
  · intro b hb _
    refine absurd hb (not_sleeps_goTo (t := t.notifyAll) rfl (by simp) ?_ b)
    intro d hd
    exact h.not_sleeps_notifyAll (by simpa [hmutex] using Ne.symm hd)

/-- The wait of `BeginExclusive` releases the mutex. -/
theorem sleep (hat : t.calls a = .dozing found) :
    AdmissionInv cancels ({ t with mutex := none }.goTo a (.asleep found)) o := by
  have hcall := h.call a
  rw [hat] at hcall
  have hmutex : t.mutex = some a := hcall.mutex.mpr trivial
  refine h.goTo rfl ?_ ?_ ⟨h.shared.busy, h.shared.pinless, h.shared.store, h.shared.unfailed⟩
    (.quiet ?_ hcall.drains hcall.inside id nofun) ?_ ?_
  · simp [hat]
  · simp [hat]
  · simp
  · intro b hb hcallb
    refine hcallb.transfer ?_ (fun _ => Iff.rfl) Iff.rfl (fun _ hadm => ⟨hadm, rfl⟩)
    simp [hmutex, Ne.symm hb]
  · intro b _ hzero
    obtain ⟨r, hr⟩ := h.wakes a (by rw [hat]; trivial) hzero
    have hra : r ≠ a := by
      rintro rfl
      rw [hat] at hr
      exact hr
    exact ⟨r, by simpa only [TableAdmission.goTo, update_of_ne hra] using hr⟩

/-- The wait of `BeginExclusive` takes the mutex again. -/
theorem relock (hat : t.calls a = .woken found) (hmutex : t.mutex = none) :
    AdmissionInv cancels ({ t with mutex := some a }.goTo a (.draining found)) o := by
  have hcall := h.call a
  rw [hat] at hcall
  refine h.goTo rfl ?_ ?_ ⟨h.shared.busy, h.shared.pinless, h.shared.store, h.shared.unfailed⟩
    (.quiet ?_ hcall.drains hcall.inside id nofun) ?_
    (h.wakes_goTo rfl id (by simp) (by simp [hat]))
  · simp [hat]
  · simp [hat]
  · simp
  · intro b hb hcallb
    refine hcallb.transfer ?_ (fun _ => Iff.rfl) Iff.rfl (fun _ hadm => ⟨hadm, rfl⟩)
    simp [hmutex, Ne.symm hb]

/-- `EndExclusive` publishes and notifies. -/
theorem publish {next : SectionEnd} (hat : t.calls a = .publishing next) (hmutex : t.mutex = none) :
    AdmissionInv cancels (t.publish a next) .free := by
  have hcall := h.call a
  rw [hat] at hcall
  have ho : o = .inside a := hcall.inside.mp trivial
  subst ho
  have hatn := TableAdmission.calls_notifyAll hat rfl
  refine goTo (u := { t.notifyAll with
      state := next.state, store := next.store,
      failed := decide (next.state = TableState.kFailed) }) h.notifyAll rfl ?_ ?_ ?_ ?_ ?_ ?_
  · simp [hatn]
  · simp [hatn]
  · exact {
      busy := by cases next <;> simp [SectionEnd.state]
      pinless := fun ho => absurd rfl ho
      store := by cases next <;> simp [SectionEnd.state, SectionEnd.store]
      unfailed := by
        rintro - (hopen | ⟨b, hb⟩)
        · have hopen' : next.state = .kOpen := hopen
          simp [hopen']
        · cases hb }
  · refine .quiet ?_ (by simp) (by simp) id nofun
    have hne : t.notifyAll.mutex ≠ some a := by simp [TableAdmission.notifyAll, hmutex]
    simpa using hne
  · intro b hb hcallb
    refine hcallb.transfer Iff.rfl ?_ ?_ ?_
    · simp
    · simp [Ne.symm hb]
    · exact fun _ hadm => absurd hadm (h.notifyAll.not_admits_of_inside rfl)
  · intro b hb _
    refine absurd hb (not_sleeps_goTo (t := t.notifyAll) rfl (by simp) ?_ b)
    intro d _
    exact h.not_sleeps_notifyAll (by simp [hmutex])

/-! ## Every step and every run -/

/-- Every step keeps the invariant, for an occupant of its own. -/
theorem step (hstep : AdmissionStep cancels t u) : ∃ o', AdmissionInv cancels u o' := by
  cases hstep with
  | migrationFails =>
    refine ⟨o, h.leases, h.pins, ?_, ?_, h.wakes⟩
    · exact ⟨h.shared.busy, h.shared.pinless, h.shared.store, h.shared.unfailed⟩
    · intro b
      have hb := h.call b
      exact ⟨hb.mutex, hb.drains, hb.inside, hb.lease, hb.value⟩
  | check a hat hhealth => exact ⟨o, h.pass (by simp [hat])⟩
  | count a hat => exact ⟨o, h.count hat⟩
  | grant a hat hstate =>
    refine ⟨o, h.move ?_ (fun _ => .inl hstate) ?_
      (h.wakes_goTo rfl id (by simp) (by simp [hat]))⟩ <;> simp [hat]
  | refuse a hat hstate => exact ⟨o, h.pass (by simp [hat])⟩
  | take a hat =>
    have hadm : Admits t o := (h.call a).lease (by rw [hat]; trivial)
    refine ⟨o, h.move ?_ (fun _ => hadm) ?_ (h.wakes_goTo rfl id (by simp) (by simp [hat]))⟩
    · simp [hat]
    · intro store hc
      exact (lease.inj hc).symm
  | endLease a hat => exact ⟨o, h.pass (by simp [hat])⟩
  | subtract a hat => exact ⟨o, h.fetchSub hat⟩
  | @loadBusy a waits hat hstate =>
    refine ⟨o, h.move ?_ ?_ ?_ ?_⟩
    · simp [hat]
    · simp
    · simp
    · exact fun _ _ _ => ⟨a, by simp [TableAdmission.goTo]⟩
  | @loadOther a waits hat hstate =>
    refine ⟨o, h.move ?_ ?_ ?_ ?_⟩
    · cases waits <;> simp [hat, afterRelease]
    · cases waits <;> simp [afterRelease]
    · cases waits <;> simp [afterRelease]
    · intro b hb _
      refine absurd hb (not_sleeps_goTo rfl ?_ (fun d _ => h.not_sleeps hstate d) b)
      cases waits <;> simp [afterRelease]
  | @notify a waits hat hmutex =>
    have hatn := TableAdmission.calls_notifyAll hat rfl
    refine ⟨o, h.notifyAll.move ?_ ?_ ?_ ?_⟩
    · cases waits <;> simp [hatn, afterRelease]
    · cases waits <;> simp [afterRelease]
    · cases waits <;> simp [afterRelease]
    · intro b hb _
      refine absurd hb (not_sleeps_goTo rfl ?_ ?_ b)
      · cases waits <;> simp [afterRelease]
      · intro d _
        exact h.not_sleeps_notifyAll (by simp [hmutex])
  | retry a hat hmutex hstate => exact ⟨o, h.pass (by simp [hat])⟩
  | pin a hat hmutex hstate hgone => exact ⟨o, h.pin hat hstate⟩
  | @unpin a store hat hmutex =>
    have hatn := TableAdmission.calls_notifyAll hat rfl
    exact ⟨o, h.notifyAll.unpin hatn⟩
  | beginExclusive a closing hat hmutex hstate hpins hhealth hgone =>
    exact ⟨_, h.beginExclusive hat hmutex hstate hpins hgone⟩
  | drained a hat hleases => exact ⟨_, h.enterSection hat hleases⟩
  | doze a hat hleases =>
    refine ⟨o, h.move ?_ ?_ ?_ (fun _ _ hzero => absurd hzero hleases)⟩ <;> simp [hat]
  | cancel a hat hleases hcancel => exact ⟨_, h.cancelDrain hat hcancel⟩
  | sleep a hat => exact ⟨o, h.sleep hat⟩
  | wakeUp a hat => exact ⟨o, h.pass (by simp [hat])⟩
  | relock a hat hmutex => exact ⟨o, h.relock hat hmutex⟩
  | endServe a next hat hhealth => exact ⟨o, h.pass (by simp [hat])⟩
  | endFence a next hat hhealth => exact ⟨o, h.pass (by simp [hat])⟩
  | endRemove a hat => exact ⟨o, h.pass (by simp [hat])⟩
  | publish a hat hmutex => exact ⟨_, h.publish hat hmutex⟩

/-- A lease held keeps the store installed through every step. -/
theorem store_of_holdsLease (hlease : (t.calls a).HoldsLease) (hstep : AdmissionStep cancels t u) :
    u.store = t.store := by
  cases hstep with
  | drained b hat hleases => exact absurd hlease (h.not_holdsLease_of_zero hleases a)
  | publish b hat hmutex =>
    have ho : o = .inside b := (h.call b).inside.mp (by rw [hat]; trivial)
    exact absurd ((h.call a).lease hlease) (h.not_admits_of_inside ho)
  | _ => rfl

/-- The store of a table that admits leases is installed. -/
theorem store_of_admits (hadm : Admits t o) : t.state ≠ .kGone ∧ t.store ≠ none := by
  have hgone : t.state ≠ .kGone := by
    rcases hadm with hopen | ⟨b, hb⟩
    · rw [hopen]
      decide
    · rw [h.shared.busy.mpr (by rw [hb]; simp)]
      decide
  refine ⟨hgone, h.shared.store hgone ?_⟩
  rintro b hb
  exact h.not_admits_of_inside hb hadm

end

end AdmissionInv

/-- The invariant holds, for some occupant, after every run. -/
theorem AdmissionRun.inv (h : AdmissionRun cancels t) : ∃ o, AdmissionInv cancels t o := by
  obtain ⟨store, health, hrun⟩ := h
  refine Runs.invariant (I := fun t => ∃ o, AdmissionInv cancels t o) hrun
    ⟨.free, AdmissionInv.opened store health⟩ ?_
  rintro s t ⟨o, hinv⟩ hstep
  exact hinv.step hstep

end ChunkDb
