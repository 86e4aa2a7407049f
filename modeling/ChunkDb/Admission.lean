/-
# Admission to one table: leases, backup pins and exclusive sections

`Table::Acquire` takes no lock: it counts itself in `active_leases_` and then loads `state_`;
`Table::BeginExclusive` stores `kBusy` under the mutex and then waits for the count to drain.
The model takes every atomic operation of a call as a step of its own.  What a call does
under the mutex is one step as long as it touches no atomic variable twice, since `state_`,
`backup_pins_` and `store_` are changed under the mutex only.

A call is where it stands in its code (`TableCall`); there are arbitrarily many, named by
numbers, and they take their steps in any order.  The feed steps inside an exclusive section
do not fail here, so `feed_cleanup_failed_` stays false, and a table fails only because a
migration did (`healthFailed`).  Two fields are there for the reader and not in the code: the state
an exclusive section found (kept by its call), and whether the last section left the table
failed (`failed`).
-/
import ChunkDb.Lib.Runs
import ChunkDb.Lib.Tally

namespace ChunkDb

/-! ## The table and its calls -/

/-- `Table::State`. -/
inductive TableState
  | kOpen
  | kBusy
  | kFailed
  | kGone
  deriving DecidableEq, Repr

/-- What `EndExclusive` is about to publish: the store to serve, the store of a table that a
failed migration fences, or nothing when the table is removed. -/
inductive SectionEnd
  | serve (store : ℕ)
  | fence (store : ℕ)
  | remove
  deriving DecidableEq, Repr

/-- The state a finished section leaves. -/
def SectionEnd.state : SectionEnd → TableState
  | .serve _ => .kOpen
  | .fence _ => .kFailed
  | .remove => .kGone

/-- The store a finished section installs. -/
def SectionEnd.store : SectionEnd → Option ℕ
  | .serve store => some store
  | .fence store => some store
  | .remove => none

/-- Where a call stands. -/
inductive TableCall
  /-- Not started, or returned. -/
  | idle
  /-- `Acquire` passed the health check. -/
  | checked
  /-- `Acquire` added itself to `active_leases_`. -/
  | counted
  /-- `Acquire` loaded `kOpen`; `store_.get()` is next. -/
  | granted
  /-- The lease, with the pointer it holds. -/
  | lease (store : Option ℕ)
  /-- `ReleaseLease` before its `fetch_sub`; `waits` when `Acquire` backs out of a busy table. -/
  | releasing (waits : Bool)
  /-- `ReleaseLease` took the last count back; the load of `state_` is next. -/
  | released (waits : Bool)
  /-- `ReleaseLease` loaded `kBusy`; it notifies under the mutex next. -/
  | notifying (waits : Bool)
  /-- `Acquire` waits for a reopen to finish. -/
  | reopening
  /-- The backup pin, with the pointer it holds. -/
  | pin (store : Option ℕ)
  /-- `BeginExclusive` holds the mutex and has stored `kBusy`; it checks the count next. -/
  | draining (found : TableState)
  /-- The count was not zero; the wait releases the mutex next. -/
  | dozing (found : TableState)
  /-- In the wait, without the mutex. -/
  | asleep (found : TableState)
  /-- Notified, cancelled or woken by itself; the mutex is taken again next. -/
  | woken (found : TableState)
  /-- In the exclusive section, with the store that was moved out. -/
  | inside (store : Option ℕ)
  /-- In `EndExclusive`, decided what to publish. -/
  | publishing (next : SectionEnd)
  deriving DecidableEq, Repr

/-- Where `ReleaseLease` returns to. -/
def afterRelease : Bool → TableCall
  | true => .reopening
  | false => .idle

namespace TableCall

/-- What the call has added to `active_leases_`. -/
@[simp] def leaseCount : TableCall → ℕ
  | .counted | .granted | .lease _ | .releasing _ => 1
  | _ => 0

/-- What the call has added to `backup_pins_`. -/
@[simp] def pinCount : TableCall → ℕ
  | .pin _ => 1
  | _ => 0

/-- The call was admitted to the store and has not started to give the lease back. -/
@[simp] def HoldsLease : TableCall → Prop
  | .granted | .lease _ => True
  | _ => False

/-- The call is in an exclusive section. -/
@[simp] def Inside : TableCall → Prop
  | .inside _ | .publishing _ => True
  | _ => False

/-- The call waits for the leases to drain, having found the table in the given state. -/
@[simp] def Drains (found : TableState) : TableCall → Prop
  | .draining f | .dozing f | .asleep f | .woken f => f = found
  | _ => False

/-- The call holds the mutex between two steps. -/
@[simp] def Locks : TableCall → Prop
  | .draining _ | .dozing _ => True
  | _ => False

/-- The call sleeps in its wait for the leases, or is about to. -/
@[simp] def Sleeps : TableCall → Prop
  | .dozing _ | .asleep _ => True
  | _ => False

/-- The call is on its way to a notification: it took the last count back. -/
@[simp] def Wakes : TableCall → Prop
  | .released _ | .notifying _ => True
  | _ => False

/-- The two calls count, lock and occupy the same. -/
@[simp] def Alike (c d : TableCall) : Prop :=
  c.leaseCount = d.leaseCount ∧ c.pinCount = d.pinCount ∧ (c.Locks ↔ d.Locks) ∧
    (∀ found, c.Drains found ↔ d.Drains found) ∧ (c.Inside ↔ d.Inside)

/-- `notify_all`, for one call. -/
def wake : TableCall → TableCall
  | .asleep found => .woken found
  | c => c

variable (c : TableCall)

theorem leaseCount_wake : c.wake.leaseCount = c.leaseCount := by
  cases c <;> rfl

theorem pinCount_wake : c.wake.pinCount = c.pinCount := by
  cases c <;> rfl

theorem locks_wake : c.wake.Locks ↔ c.Locks := by
  cases c <;> rfl

theorem drains_wake (found : TableState) :
    c.wake.Drains found ↔ c.Drains found := by
  cases c <;> rfl

theorem inside_wake : c.wake.Inside ↔ c.Inside := by
  cases c <;> rfl

theorem holdsLease_wake : c.wake.HoldsLease ↔ c.HoldsLease := by
  cases c <;> rfl

theorem wakes_wake : c.wake.Wakes ↔ c.Wakes := by
  cases c <;> rfl

theorem wake_eq_lease (store : Option ℕ) :
    c.wake = .lease store ↔ c = .lease store := by
  cases c <;> simp [wake]

theorem sleeps_of_wake {c : TableCall} (h : c.wake.Sleeps) : c.Sleeps := by
  cases c with
  | asleep found => exact trivial
  | _ => exact h

/-- A call still on its way to sleep after a notification holds the mutex. -/
theorem locks_of_wake_sleeps {c : TableCall} (h : c.wake.Sleeps) : c.Locks := by
  cases c with
  | dozing found => exact trivial
  | _ => exact h.elim

/-- A sleeping call is one that drains. -/
theorem drains_of_sleeps {c : TableCall} (h : c.Sleeps) : ∃ found, c.Drains found := by
  cases c with
  | dozing found => exact ⟨found, rfl⟩
  | asleep found => exact ⟨found, rfl⟩
  | _ => exact h.elim

theorem leaseCount_of_holdsLease {c : TableCall} (h : c.HoldsLease) : c.leaseCount = 1 := by
  cases c with
  | granted => rfl
  | lease store => rfl
  | _ => exact h.elim

end TableCall

/-- A table and the calls on it. -/
structure TableAdmission where
  /-- `state_`. -/
  state : TableState
  /-- `active_leases_`. -/
  leases : ℕ
  /-- `backup_pins_`. -/
  pins : ℕ
  /-- `store_`. -/
  store : Option ℕ
  /-- `migration_health_->failed`. -/
  healthFailed : Bool
  /-- The call that holds `mutex_` between two steps. -/
  mutex : Option ℕ
  /-- The last exclusive section left the table failed. -/
  failed : Bool
  /-- Where each call stands. -/
  calls : ℕ → TableCall

namespace TableAdmission

/-- A table just made, serving the store it was given. -/
def opened (store : ℕ) (healthFailed : Bool) : TableAdmission where
  state := .kOpen
  leases := 0
  pins := 0
  store := some store
  healthFailed := healthFailed
  mutex := none
  failed := false
  calls := fun _ => .idle

/-- One call goes on to `c`. -/
def goTo (t : TableAdmission) (a : ℕ) (c : TableCall) : TableAdmission :=
  { t with calls := Function.update t.calls a c }

/-- `cv_.notify_all()`. -/
def notifyAll (t : TableAdmission) : TableAdmission :=
  { t with calls := fun a => (t.calls a).wake }

/-- `active_leases_.fetch_sub(1)`, and the load of `state_` only when it returned 1. -/
def fetchSub (t : TableAdmission) (a : ℕ) (waits : Bool) : TableAdmission :=
  { t with leases := t.leases - 1 }.goTo a
    (if t.leases = 1 then .released waits else afterRelease waits)

/-- A `BeginExclusive` that did not drain: it is cancelled, or its wait throws. -/
def cancelDrain (t : TableAdmission) (a : ℕ) : TableAdmission :=
  { t with state := .kOpen, mutex := none }.notifyAll.goTo a .idle

/-- `BeginExclusive` drained: the store is moved out and the mutex released. -/
def enterSection (t : TableAdmission) (a : ℕ) : TableAdmission :=
  { t with store := none, mutex := none }.goTo a (.inside t.store)

/-- The last block of `EndExclusive`, under the mutex, and its notification. -/
def publish (t : TableAdmission) (a : ℕ) (next : SectionEnd) : TableAdmission :=
  { t with
    state := next.state
    store := next.store
    failed := decide (next.state = TableState.kFailed) }.notifyAll.goTo a .idle

end TableAdmission

/-- One step of the table or of one of its calls.  A drain is given up only when the state
its section had found is among `cancels`. -/
inductive AdmissionStep (cancels : TableState → Prop) : TableAdmission → TableAdmission → Prop
  /-- A migration fails. -/
  | migrationFails (t) : AdmissionStep cancels t { t with healthFailed := true }
  /-- `Acquire`: `migration_health_->Check()` passes.  A check that throws changes nothing. -/
  | check {t} (a : ℕ) (hat : t.calls a = .idle) (hhealth : t.healthFailed = false) :
      AdmissionStep cancels t (t.goTo a .checked)
  /-- `active_leases_.fetch_add(1)`. -/
  | count {t} (a : ℕ) (hat : t.calls a = .checked) :
      AdmissionStep cancels t ({ t with leases := t.leases + 1 }.goTo a .counted)
  /-- `state_.load()` returns `kOpen`. -/
  | grant {t} (a : ℕ) (hat : t.calls a = .counted) (hstate : t.state = .kOpen) :
      AdmissionStep cancels t (t.goTo a .granted)
  /-- `state_.load()` returns another state: the count is taken back. -/
  | refuse {t} (a : ℕ) (hat : t.calls a = .counted) (hstate : t.state ≠ .kOpen) :
      AdmissionStep cancels t (t.goTo a (.releasing (decide (t.state = .kBusy))))
  /-- `Lease(this, store_.get())`. -/
  | take {t} (a : ℕ) (hat : t.calls a = .granted) :
      AdmissionStep cancels t (t.goTo a (.lease t.store))
  /-- The lease ends. -/
  | endLease {t} (a : ℕ) {store : Option ℕ} (hat : t.calls a = .lease store) :
      AdmissionStep cancels t (t.goTo a (.releasing false))
  /-- `active_leases_.fetch_sub(1)`. -/
  | subtract {t} (a : ℕ) {waits : Bool} (hat : t.calls a = .releasing waits) :
      AdmissionStep cancels t (t.fetchSub a waits)
  /-- The last count was taken back and `state_.load()` returns `kBusy`. -/
  | loadBusy {t} (a : ℕ) {waits : Bool} (hat : t.calls a = .released waits)
      (hstate : t.state = .kBusy) : AdmissionStep cancels t (t.goTo a (.notifying waits))
  /-- The last count was taken back and `state_.load()` returns another state. -/
  | loadOther {t} (a : ℕ) {waits : Bool} (hat : t.calls a = .released waits)
      (hstate : t.state ≠ .kBusy) : AdmissionStep cancels t (t.goTo a (afterRelease waits))
  /-- `ReleaseLease` notifies under the mutex. -/
  | notify {t} (a : ℕ) {waits : Bool} (hat : t.calls a = .notifying waits)
      (hmutex : t.mutex = none) :
      AdmissionStep cancels t (t.notifyAll.goTo a (afterRelease waits))
  /-- The wait of `Acquire` for a reopen ends; its loop starts again. -/
  | retry {t} (a : ℕ) (hat : t.calls a = .reopening) (hmutex : t.mutex = none)
      (hstate : t.state ≠ .kBusy) : AdmissionStep cancels t (t.goTo a .idle)
  /-- `PinForBackup` passes its wait on a table that is not removed. -/
  | pin {t} (a : ℕ) (hat : t.calls a = .idle) (hmutex : t.mutex = none)
      (hstate : t.state ≠ .kBusy) (hgone : t.state ≠ .kGone) :
      AdmissionStep cancels t ({ t with pins := t.pins + 1 }.goTo a (.pin t.store))
  /-- `ReleaseBackupPin`. -/
  | unpin {t} (a : ℕ) {store : Option ℕ} (hat : t.calls a = .pin store)
      (hmutex : t.mutex = none) :
      AdmissionStep cancels t ({ t with pins := t.pins - 1 }.notifyAll.goTo a .idle)
  /-- `BeginExclusive` passes its first wait and stores `kBusy`; without `closing` it has
  checked the health of migrations. -/
  | beginExclusive {t} (a : ℕ) (closing : Bool) (hat : t.calls a = .idle)
      (hmutex : t.mutex = none) (hstate : t.state ≠ .kBusy) (hpins : t.pins = 0)
      (hhealth : closing = false → t.healthFailed = false) (hgone : t.state ≠ .kGone) :
      AdmissionStep cancels t
        ({ t with state := .kBusy, mutex := some a }.goTo a (.draining t.state))
  /-- The count is zero: the section is entered. -/
  | drained {t} (a : ℕ) {found : TableState} (hat : t.calls a = .draining found)
      (hleases : t.leases = 0) : AdmissionStep cancels t (t.enterSection a)
  /-- The count is not zero. -/
  | doze {t} (a : ℕ) {found : TableState} (hat : t.calls a = .draining found)
      (hleases : t.leases ≠ 0) : AdmissionStep cancels t (t.goTo a (.dozing found))
  /-- The count is not zero and the wait is cancelled, or throws. -/
  | cancel {t} (a : ℕ) {found : TableState} (hat : t.calls a = .draining found)
      (hleases : t.leases ≠ 0) (hcancel : cancels found) :
      AdmissionStep cancels t (t.cancelDrain a)
  /-- The wait releases the mutex and sleeps. -/
  | sleep {t} (a : ℕ) {found : TableState} (hat : t.calls a = .dozing found) :
      AdmissionStep cancels t ({ t with mutex := none }.goTo a (.asleep found))
  /-- A cancelled or spurious wake-up. -/
  | wakeUp {t} (a : ℕ) {found : TableState} (hat : t.calls a = .asleep found) :
      AdmissionStep cancels t (t.goTo a (.woken found))
  /-- The wait takes the mutex again. -/
  | relock {t} (a : ℕ) {found : TableState} (hat : t.calls a = .woken found)
      (hmutex : t.mutex = none) :
      AdmissionStep cancels t ({ t with mutex := some a }.goTo a (.draining found))
  /-- `EndExclusive` with a store while no migration has failed. -/
  | endServe {t} (a : ℕ) {store : Option ℕ} (next : ℕ) (hat : t.calls a = .inside store)
      (hhealth : t.healthFailed = false) :
      AdmissionStep cancels t (t.goTo a (.publishing (.serve next)))
  /-- `EndExclusive` with a store after a failed migration. -/
  | endFence {t} (a : ℕ) {store : Option ℕ} (next : ℕ) (hat : t.calls a = .inside store)
      (hhealth : t.healthFailed = true) :
      AdmissionStep cancels t (t.goTo a (.publishing (.fence next)))
  /-- `EndExclusive` without a store. -/
  | endRemove {t} (a : ℕ) {store : Option ℕ} (hat : t.calls a = .inside store) :
      AdmissionStep cancels t (t.goTo a (.publishing .remove))
  /-- `EndExclusive` publishes. -/
  | publish {t} (a : ℕ) {next : SectionEnd} (hat : t.calls a = .publishing next)
      (hmutex : t.mutex = none) : AdmissionStep cancels t (t.publish a next)

/-- The table is reached from a new one. -/
def AdmissionRun (cancels : TableState → Prop) (t : TableAdmission) : Prop :=
  ∃ store health, Relation.ReflTransGen (AdmissionStep cancels)
    (TableAdmission.opened store health) t

end ChunkDb
