/-
# Steps of a table that commit nothing

Every step of a thread keeps `TxnStore.Inv`.  Most of them leave the log and the chunks alone
(`TxnStore.Quiet`): what the history does for itself, and what a thread does before its commit
point.  A transaction that holds its locks finds a chunk changed exactly when a write above its
snapshot is committed (`TxnStore.Inv.changed_iff`).
-/
import ChunkDb.Txn.Invariant

namespace ChunkDb

open List Function TxnHistory

namespace TxnStore

/-! ## Steps that commit nothing -/

/-- A step that leaves the log and the chunks alone. -/
structure Quiet (initial : ChunkCoord → StoredState) (s s' : TxnStore) : Prop
    extends Onward s s' where
  log_eq : s'.log = s.log
  chunks_eq : s'.chunks = s.chunks
  keeps_sub : ∀ kept, s'.history.Keeps kept → s.history.Keeps kept
  snapshot_lt : ∀ id, s'.snapshotVersion id < s'.clock
  sampled_lt : ∀ version, s'.registering = some (.sampled version) → version < s'.clock
  reads_of : ∀ read ∈ s'.reads, read ∈ s.reads ∨ s.Returned initial read
  pending_of : ∀ coord tag, s.Pending coord tag → s'.Pending coord tag

section Quiet

variable {initial : ChunkCoord → StoredState} {s s' : TxnStore}

theorem Quiet.frame (hquiet : Quiet initial s s') (thread : TxnThread) :
    Frame initial s s' thread where
  __ := hquiet
  keeps_held := fun kept hkept => .inl (hquiet.keeps_sub kept hkept)
  below_eq := fun _ _ _ => by rw [hquiet.log_eq]
  writes_eq := fun _ _ => by rw [hquiet.log_eq]
  chunks_eq := fun _ _ => by rw [hquiet.chunks_eq]
  commits_of := fun _ hcommit => .inl (hquiet.log_eq ▸ hcommit)

theorem Returned.quiet {read : TxnRead} (hread : s.Returned initial read)
    (hquiet : Quiet initial s s') : s'.Returned initial read where
  lt_next := hread.lt_next.trans_le hquiet.next_le
  version_eq := hread.version_eq.trans (hquiet.version_eq _ hread.lt_next).symm
  isSealed := hquiet.sealed_of _ _ hread.isSealed
  state_eq := hquiet.log_eq ▸ hread.state_eq

theorem Committed.quiet {commit : TxnCommit} (hcommit : s.Committed initial commit)
    (hquiet : Quiet initial s s') : s'.Committed initial commit where
  changes_eq := hquiet.log_eq ▸ hcommit.changes_eq
  snapshot_lt := fun id hid =>
    hquiet.version_eq id (hcommit.lt_next id hid) ▸ hcommit.snapshot_lt id hid
  lt_next := fun id hid => (hcommit.lt_next id hid).trans_le hquiet.next_le
  unchanged := by
    intro id hid
    rw [hquiet.log_eq, hquiet.version_eq id (hcommit.lt_next id hid)]
    exact hcommit.unchanged id hid

/-- A write above a snapshot is covered after a quiet step. -/
theorem Inv.covered_quiet (hinv : s.Inv initial) (hquiet : Quiet initial s s') (id : ℕ)
    (hid : s'.Registered id) (coord : ChunkCoord) (write : ℕ × StoredState)
    (hwrite : write ∈ writesTo s'.log coord) (hlt : s'.snapshotVersion id < write.1) :
    (∃ kept, s'.history.Keeps kept ∧ kept.coord = coord ∧ s'.snapshotVersion id < kept.tag
      ∧ kept.tag ≤ write.1) ∨ s'.Pending coord write.1 := by
  rw [hquiet.log_eq] at hwrite
  by_cases hnew : s.nextSnapshot ≤ id
  · -- a new snapshot: what is above it waited while it was sampled
    have hphase := hquiet.registered_new id hnew hid
    exact .inr (hquiet.pending_of _ _ (hinv.sampled _ hphase coord write hwrite hlt))
  · have hold := not_le.mp hnew
    rw [hquiet.version_eq id hold] at hlt ⊢
    rcases hinv.covered id (hquiet.registered_of id hold hid) coord write hwrite hlt with
      ⟨kept, hkept, hcoord, habove, hle⟩ | hpending
    · exact .inl ⟨kept, hquiet.keeps_of id hold hid kept hkept habove, hcoord, habove, hle⟩
    · exact .inr (hquiet.pending_of _ _ hpending)

/-- A quiet step keeps the invariant. -/
theorem Inv.quiet (hinv : s.Inv initial) (hquiet : Quiet initial s s')
    (hrep : s'.history.Rep s'.counting)
    (hlocks : ∀ t t', t ≠ t' → ∀ coord other, (coord, true) ∈ (s'.threads t).held →
      (coord, other) ∉ (s'.threads t').held)
    (hok : ∀ t, s.ThreadOk initial (s'.threads t) ∨ s'.ThreadOk initial (s'.threads t))
    (htaken : ∀ t t', t ≠ t' → ∀ version, (s'.threads t).taken = some version →
      (s'.threads t').taken ≠ some version)
    (hfresh : ∀ id, s'.Registered id → id < s'.nextSnapshot) : s'.Inv initial where
  rep := hrep
  locks := hlocks
  threadOk := fun t => (hok t).elim (fun hold => hold.frame (hquiet.frame _)) id
  taken_ne := htaken
  snapshot_lt := hquiet.snapshot_lt
  sampled_lt := hquiet.sampled_lt
  commits_lt := by
    rw [hquiet.log_eq]
    exact fun commit hcommit => (hinv.commits_lt commit hcommit).trans_le hquiet.clock_le
  fresh := hfresh
  chunks_eq := by
    intro coord
    rw [hquiet.chunks_eq, hquiet.log_eq, hinv.chunks_eq coord]
    refine stateBelow_congr fun write hwrite => ?_
    obtain ⟨commit, hcommit, state, _, rfl⟩ := mem_writesTo.mp hwrite
    have hlt := hinv.commits_lt commit hcommit
    exact iff_of_true hlt (hlt.trans_le hquiet.clock_le)
  increasing := by
    rw [hquiet.log_eq]
    exact hinv.increasing
  nodup := by
    rw [hquiet.log_eq]
    exact hinv.nodup
  kept := fun kept hkept => (hinv.kept kept (hquiet.keeps_sub kept hkept)).of_writesTo
    (by rw [hquiet.log_eq])
  covered := hinv.covered_quiet hquiet
  sampled := by
    intro version hphase coord write hwrite hlt
    rw [hquiet.log_eq] at hwrite
    refine hquiet.pending_of _ _ ?_
    rcases hquiet.sampled_of version hphase with hold | hclock
    · exact hinv.sampled version hold coord write hwrite hlt
    · -- nothing is committed above a version that was just read
      obtain ⟨commit, hcommit, state, _, rfl⟩ := mem_writesTo.mp hwrite
      have := hinv.commits_lt commit hcommit
      dsimp only at hlt
      omega
  reads := fun read hread => ((hquiet.reads_of read hread).elim (hinv.reads read) id).quiet hquiet
  commits := fun commit hcommit =>
    (hinv.commits commit (hquiet.log_eq ▸ hcommit)).quiet hquiet

end Quiet

/-! ## The history's own steps -/

section History

variable {initial : ChunkCoord → StoredState} {s : TxnStore}

section

variable (hinv : s.Inv initial)

include hinv

/-- Locks and versions taken are as before when no thread moves. -/
theorem Inv.quiet_threads {s' : TxnStore} (hquiet : Quiet initial s s')
    (hthreads : s'.threads = s.threads) (hrep : s'.history.Rep s'.counting)
    (hfresh : ∀ id, s'.Registered id → id < s'.nextSnapshot) : s'.Inv initial := by
  refine hinv.quiet hquiet hrep ?_ (fun t => .inl ?_) ?_ hfresh <;> rw [hthreads]
  · exact hinv.locks
  · exact hinv.threadOk t
  · exact hinv.taken_ne

/-- No step at all; a step changes some of it. -/
theorem Quiet.refl : Quiet initial s s where
  __ := hinv.onward
  log_eq := rfl
  chunks_eq := rfl
  keeps_sub := fun _ hkept => hkept
  snapshot_lt := hinv.snapshot_lt
  sampled_lt := hinv.sampled_lt
  reads_of := fun _ => .inl
  pending_of := fun _ _ hpending => hpending

/-- Snapshots end, and states no other snapshot reads go with them. -/
theorem Quiet.shrink {history : TxnHistory} (hshrinks : s.history.Shrinks history)
    {registering : Option Registering} (hphase : ∀ version, registering ≠ some (.sampled version)) :
    Quiet initial s { s with history, registering } where
  __ := Quiet.refl hinv
  overhead_eq := hshrinks.overhead_eq
  version_eq := fun id _ => hshrinks.version_eq id
  registered_of := fun id _ hid => hshrinks.registered id hid
  registered_new := fun id hle hid =>
    absurd (hinv.fresh id (hshrinks.registered id hid)) (not_lt.mpr hle)
  sampled_of := fun version heq => absurd heq (hphase version)
  keeps_of := fun id _ hid _ hkept hlt =>
    hshrinks.keeps_of hkept hid ((hshrinks.version_eq id).trans_lt hlt)
  keeps_sub := fun _ hkept => hshrinks.keeps hkept
  snapshot_lt := fun id => (hshrinks.version_eq id).trans_lt (hinv.snapshot_lt id)
  sampled_lt := fun version heq => absurd heq (hphase version)

theorem Inv.shrink (hnone : s.registering = none) {history : TxnHistory} (hrep : history.Rep 0)
    (hshrinks : s.history.Shrinks history) : { s with history }.Inv initial := by
  have hsame : ({ s with history } : TxnStore) = { s with history, registering := none } := by
    rw [← hnone]
  rw [hsame]
  exact hinv.quiet_threads (.shrink hinv hshrinks nofun) rfl hrep
    fun id hid => hinv.fresh id (hshrinks.registered id hid)

theorem Inv.rep_none (hnone : s.registering = none) : s.history.Rep 0 := by
  have hrep := hinv.rep
  rw [counting, hnone] at hrep
  exact hrep

theorem Inv.rep_some {phase : Registering} (hsome : s.registering = some phase) :
    s.history.Rep 1 := by
  have hrep := hinv.rep
  rw [counting, hsome] at hrep
  exact hrep

theorem Inv.registerCount (hnone : s.registering = none) (now : ℕ) :
    { s with history := s.history.registerCount now, registering := some .counted }.Inv initial := by
  obtain ⟨hrep, hshrinks⟩ := registerCount_spec (hinv.rep_none hnone) now
  exact hinv.quiet_threads (.shrink hinv hshrinks nofun) rfl hrep
    fun id hid => hinv.fresh id (hshrinks.registered id hid)

theorem Inv.registerFail {phase : Registering} (hsome : s.registering = some phase) :
    { s with history := s.history.registerFail, registering := none }.Inv initial := by
  have hshrinks : s.history.Shrinks s.history.registerFail := { TxnHistory.Shrinks.refl _ with }
  exact hinv.quiet_threads (.shrink hinv hshrinks nofun) rfl
    (registerFail_rep (hinv.rep_some hsome)) hinv.fresh

theorem Inv.clock_pos : 0 < s.clock :=
  (Nat.zero_le _).trans_lt (hinv.snapshot_lt 0)

theorem Quiet.raiseClock {clock : ℕ} (hle : s.clock ≤ clock) :
    Quiet initial s { s with clock } where
  __ := Quiet.refl hinv
  clock_le := hle
  snapshot_lt := fun id => (hinv.snapshot_lt id).trans_le hle
  sampled_lt := fun version heq => (hinv.sampled_lt version heq).trans_le hle
  sealed_of := fun _ _ hsealed => ⟨hsealed.1.trans_le hle, hsealed.2⟩

theorem Inv.raiseClock {clock : ℕ} (hle : s.clock ≤ clock) : { s with clock }.Inv initial :=
  hinv.quiet_threads (.raiseClock hinv hle) rfl hinv.rep hinv.fresh

/-- The version is read after the count: every version taken so far is at or below it. -/
theorem Quiet.registerSample :
    Quiet initial s { s with registering := some (.sampled (s.clock - 1)) } where
  __ := Quiet.refl hinv
  sampled_of := by
    intro version heq
    have hversion : s.clock - 1 = version := Registering.sampled.inj (Option.some.inj heq)
    exact .inr (by omega)
  sampled_lt := by
    intro version heq
    have hversion : s.clock - 1 = version := Registering.sampled.inj (Option.some.inj heq)
    have hpos := hinv.clock_pos
    change version < s.clock
    omega

theorem Inv.registerSample (hcounted : s.registering = some .counted) :
    { s with registering := some (.sampled (s.clock - 1)) }.Inv initial :=
  hinv.quiet_threads (.registerSample hinv) rfl (hinv.rep_some hcounted) hinv.fresh

end

section Publish

variable (s) (version deadline : ℕ)

/-- The table once the counted snapshot is registered. -/
def registered : TxnStore :=
  { s with
    history := s.history.registerPublish s.nextSnapshot version deadline
    registering := none
    nextSnapshot := s.nextSnapshot + 1 }

theorem snapshot_registered_of_ne {id : ℕ} (hne : id ≠ s.nextSnapshot) :
    (s.registered version deadline).history.snapshot id = s.history.snapshot id :=
  update_of_ne hne ..

theorem snapshot_registered_self :
    (s.registered version deadline).history.snapshot s.nextSnapshot
      = ⟨version, deadline, true, none⟩ :=
  update_self ..

theorem registered_of_ne {id : ℕ} (hne : id ≠ s.nextSnapshot) :
    (s.registered version deadline).Registered id ↔ s.Registered id := by
  rw [Registered, snapshot_registered_of_ne s version deadline hne]
  rfl

end Publish

theorem Quiet.registerPublish (hinv : s.Inv initial) {version : ℕ} (deadline : ℕ)
    (hsampled : s.registering = some (.sampled version)) :
    Quiet initial s (s.registered version deadline) where
  __ := Quiet.refl hinv
  next_le := Nat.le_succ _
  version_eq := fun _ hlt => congrArg _ (snapshot_registered_of_ne s version deadline hlt.ne)
  registered_of := fun _ hlt hid => (registered_of_ne s version deadline hlt.ne).mp hid
  registered_new := by
    intro id hge hid
    by_cases heq : id = s.nextSnapshot
    · rw [hsampled, heq, snapshotVersion, snapshot_registered_self]
    · exact absurd (hinv.fresh id ((registered_of_ne s version deadline heq).mp hid))
        (not_lt.mpr hge)
  sampled_of := nofun
  keeps_of := fun _ _ _ _ hkept _ => hkept
  snapshot_lt := by
    intro id
    by_cases heq : id = s.nextSnapshot
    · rw [heq, snapshotVersion, snapshot_registered_self]
      exact hinv.sampled_lt version hsampled
    · rw [snapshotVersion, snapshot_registered_of_ne s version deadline heq]
      exact hinv.snapshot_lt id
  sampled_lt := nofun

theorem Inv.registerPublish (hinv : s.Inv initial) {version : ℕ} (deadline : ℕ)
    (hsampled : s.registering = some (.sampled version)) :
    (s.registered version deadline).Inv initial := by
  have hnew : (s.history.snapshot s.nextSnapshot).registered = false :=
    Bool.eq_false_iff.mpr fun hid => (hinv.fresh _ hid).false
  refine hinv.quiet_threads (.registerPublish hinv deadline hsampled) rfl
    (registerPublish_rep (hinv.rep_some hsampled) version deadline hnew) fun id hid => ?_
  by_cases heq : id = s.nextSnapshot
  · exact heq.trans_lt (Nat.lt_succ_self _)
  · exact (hinv.fresh id ((registered_of_ne s version deadline heq).mp hid)).trans
      (Nat.lt_succ_self _)

end History

/-! ## The steps of one thread -/

section Threads

variable {initial : ChunkCoord → StoredState} {s : TxnStore} {t : ℕ} {thread : TxnThread}

theorem threads_setThread_self : (s.setThread t thread).threads t = thread :=
  update_self ..

theorem threads_setThread_of_ne {t' : ℕ} (hne : t' ≠ t) :
    (s.setThread t thread).threads t' = s.threads t' :=
  update_of_ne hne ..

theorem Inv.ok (hinv : s.Inv initial) (hthread : s.threads t = thread) : s.ThreadOk initial thread :=
  hthread ▸ hinv.threadOk t

/-- The locks of a thread agree with those of the others. -/
def Compatible (s : TxnStore) (t : ℕ) (held : List (ChunkCoord × Bool)) : Prop :=
  ∀ t' ≠ t, ∀ coord other, ((coord, true) ∈ held → (coord, other) ∉ (s.threads t').held)
    ∧ ((coord, true) ∈ (s.threads t').held → (coord, other) ∉ held)

variable {held : List (ChunkCoord × Bool)} {coord : ChunkCoord} {w : TxnWrite} {id : ℕ}

theorem Inv.compatible (hinv : s.Inv initial) (hsub : held ⊆ (s.threads t).held) :
    s.Compatible t held := fun t' hne coord other =>
  ⟨fun hmem => hinv.locks t t' hne.symm coord other (hsub hmem),
    fun hmem hheld => hinv.locks t' t hne coord other hmem (hsub hheld)⟩

/-- What holds between any two threads, when one of them goes on. -/
theorem pairwise_setThread {R : TxnThread → TxnThread → Prop}
    (hold : ∀ t₁ t₂, t₁ ≠ t₂ → R (s.threads t₁) (s.threads t₂))
    (hnew : ∀ t' ≠ t, R thread (s.threads t') ∧ R (s.threads t') thread) (t₁ t₂ : ℕ)
    (hne : t₁ ≠ t₂) : R ((s.setThread t thread).threads t₁) ((s.setThread t thread).threads t₂) := by
  by_cases h₁ : t₁ = t
  · subst h₁
    rw [threads_setThread_self, threads_setThread_of_ne hne.symm]
    exact (hnew t₂ hne.symm).1
  · rw [threads_setThread_of_ne h₁]
    by_cases h₂ : t₂ = t
    · subst h₂
      rw [threads_setThread_self]
      exact (hnew t₁ h₁).2
    · rw [threads_setThread_of_ne h₂]
      exact hold t₁ t₂ hne

theorem Compatible.locks (hlocks : s.Compatible t thread.held) (hinv : s.Inv initial) :
    ∀ t₁ t₂, t₁ ≠ t₂ → ∀ coord other, (coord, true) ∈ ((s.setThread t thread).threads t₁).held →
      (coord, other) ∉ ((s.setThread t thread).threads t₂).held :=
  pairwise_setThread
    (R := fun a b => ∀ coord other, (coord, true) ∈ a.held → (coord, other) ∉ b.held) hinv.locks
    fun t' hne => ⟨fun coord other => (hlocks t' hne coord other).1,
      fun coord other => (hlocks t' hne coord other).2⟩

/-- The versions taken stay apart when a thread takes one that no other has. -/
theorem Inv.taken_ne_setThread (hinv : s.Inv initial)
    (hnew : ∀ version, thread.taken = some version → ∀ t' ≠ t,
      (s.threads t').taken ≠ some version) :
    ∀ t₁ t₂, t₁ ≠ t₂ → ∀ version, ((s.setThread t thread).threads t₁).taken = some version →
      ((s.setThread t thread).threads t₂).taken ≠ some version :=
  pairwise_setThread (R := fun a b => ∀ version, a.taken = some version → b.taken ≠ some version)
    hinv.taken_ne fun t' hne => ⟨fun version hself => hnew version hself t' hne,
      fun version hother hself => hnew version hself t' hne hother⟩

theorem Sealed.setThread {bound : ℕ} (hsealed : s.Sealed coord bound)
    (hnew : ∀ taken, thread.taken = some taken → (coord, true) ∈ thread.held → bound < taken) :
    (s.setThread t thread).Sealed coord bound := by
  refine ⟨hsealed.1, fun t' => ?_⟩
  by_cases heq : t' = t
  · subst heq
    rw [threads_setThread_self]
    exact hnew
  · rw [threads_setThread_of_ne heq]
    exact hsealed.2 t'

theorem Pending.setThread {tag : ℕ} (hpending : s.Pending coord tag)
    (hsub : (s.threads t).pending ⊆ thread.pending) : (s.setThread t thread).Pending coord tag := by
  obtain ⟨t', kept, hkept, hsame⟩ := hpending
  refine ⟨t', kept, ?_, hsame⟩
  by_cases heq : t' = t
  · subst heq
    rw [threads_setThread_self]
    exact hsub hkept
  · rw [threads_setThread_of_ne heq]
    exact hkept

theorem Quiet.setThread (hinv : s.Inv initial)
    (htaken : ∀ version, thread.taken = some version →
      (s.threads t).taken = some version ∧ thread.held = (s.threads t).held)
    (hpending : (s.threads t).pending ⊆ thread.pending) :
    Quiet initial s (s.setThread t thread) where
  __ := Quiet.refl hinv
  sealed_of := by
    intro coord version hsealed
    refine hsealed.setThread fun taken hself hheld => ?_
    obtain ⟨hold, hsame⟩ := htaken taken hself
    exact hsealed.2 t taken hold (hsame ▸ hheld)
  pending_of := fun _ _ hold => hold.setThread hpending

/-- A thread goes on and leaves the table alone. -/
theorem Inv.setThread (hinv : s.Inv initial) (hok : s.ThreadOk initial thread)
    (hlocks : s.Compatible t thread.held)
    (htaken : ∀ version, thread.taken = some version →
      (s.threads t).taken = some version ∧ thread.held = (s.threads t).held)
    (hpending : (s.threads t).pending ⊆ thread.pending) : (s.setThread t thread).Inv initial := by
  refine hinv.quiet (.setThread hinv htaken hpending) hinv.rep
    (hlocks.locks hinv) (fun t' => .inl ?_)
    (hinv.taken_ne_setThread fun version hself t' hother => ?_) hinv.fresh
  · by_cases heq : t' = t
    · subst heq
      rw [threads_setThread_self]
      exact hok
    · rw [threads_setThread_of_ne heq]
      exact hinv.threadOk t'
  · exact hinv.taken_ne t t' hother.symm version (htaken version hself).1

/-- A thread that has published everything gives up. -/
theorem Inv.idle (hinv : s.Inv initial) (hnone : (s.threads t).pending = []) :
    (s.setThread t .idle).Inv initial :=
  hinv.setThread trivial (hinv.compatible (nil_subset _)) nofun (by rw [hnone]; exact nil_subset _)

theorem ThreadOk.taken_lt {version : ℕ} (hok : s.ThreadOk initial thread)
    (htaken : thread.taken = some version) : version < s.clock := by
  cases thread with
  | versioned w changes version' =>
    cases htaken
    exact Versioned.lt_clock hok
  | prepared w changes version' keeps =>
    cases htaken
    exact Versioned.lt_clock hok.1
  | _ => cases htaken

section

variable (hinv : s.Inv initial)

include hinv

theorem Inv.lock {todo : List (ChunkCoord × Bool)} {target : ChunkCoord × Bool}
    (hthread : s.threads t = .locking w held (target :: todo)) (hfree : s.Free target.1 target.2) :
    (s.setThread t (.locking w (held ++ [target]) todo)).Inv initial := by
  have hok := hinv.ok hthread
  refine hinv.setThread ⟨hok.1, hok.2.1, ?_⟩ (fun t' hne coord other => ⟨?_, ?_⟩)
    nofun (by rw [hthread]; exact nil_subset _)
  · rw [append_assoc]
    exact hok.2.2
  · intro hmem
    rcases mem_append.mp hmem with hold | hnew
    · refine hinv.locks t t' hne.symm coord other ?_
      rw [hthread]
      exact hold
    · obtain rfl := mem_singleton.mp hnew
      exact fun hother => Bool.noConfusion (hfree t' other hother).1
  · intro hmem hheld
    rcases mem_append.mp hheld with hold | hnew
    · refine hinv.locks t' t hne coord other hmem ?_
      rw [hthread]
      exact hold
    · obtain rfl := mem_singleton.mp hnew
      exact Bool.noConfusion (hfree t' true hmem).2

/-- A state that waits belongs to a committed write. -/
theorem Inv.of_pending {tag : ℕ} (hpending : s.Pending coord tag) :
    ∃ t w left kept, s.threads t = .publishing w left ∧ s.Publishing initial w left ∧ kept ∈ left
      ∧ kept.coord = coord ∧ kept.tag = tag := by
  obtain ⟨t, kept, hkept, hsame⟩ := hpending
  cases hthread : s.threads t with
  | publishing w left =>
    rw [hthread] at hkept
    exact ⟨t, w, left, kept, hthread, hinv.ok hthread, hkept, hsame⟩
  | _ =>
    rw [hthread] at hkept
    exact absurd hkept not_mem_nil

/-- A read copies the state: the snapshot's, unless a write above the snapshot is published. -/
theorem Inv.readCopy (hidle : s.threads t = .idle) (hid : id < s.nextSnapshot)
    (hfree : s.Free coord false) :
    (s.setThread t (.reading id coord (s.chunks coord))).Inv initial := by
  have hnot : ∀ t', (coord, true) ∉ (s.threads t').held := fun t' hheld =>
    Bool.noConfusion (hfree t' true hheld).2
  refine hinv.setThread ⟨hid, ⟨hinv.snapshot_lt id, fun t' _ _ hheld => absurd hheld (hnot t')⟩, ?_⟩
    (hinv.compatible (nil_subset _)) nofun
    (by rw [hidle]; exact nil_subset _)
  by_cases hwrites : ∀ write ∈ writesTo s.log coord, write.1 < s.snapshotVersion id + 1
  · refine .inl ((hinv.chunks_eq coord).trans (stateBelow_congr fun write hwrite => ?_))
    have := hinv.snapshot_lt id
    have := hwrites write hwrite
    omega
  · push Not at hwrites
    obtain ⟨write, hwrite, hlt⟩ := hwrites
    refine .inr fun hreg => ?_
    rcases hinv.covered id hreg coord write hwrite hlt with ⟨kept, hkept, hcoord, habove, _⟩ | hpending
    · exact ⟨kept, hkept, hcoord, habove⟩
    · -- a state that waits is under the chunk's exclusive lock
      obtain ⟨t', w, left, kept, hthread, hpublishing, hkept, rfl, _⟩ := hinv.of_pending hpending
      refine absurd ?_ (hnot t')
      rw [hthread]
      exact hpublishing.mem_targets kept hkept

/-- The oldest state kept above a registered snapshot is the snapshot's. -/
theorem Inv.state_oldestAbove (hid : s.Registered id) {kept : TxnKeptState}
    (hfound : s.history.oldestAbove coord (s.snapshotVersion id) = some kept) :
    kept.state = stateBelow initial s.log coord (s.snapshotVersion id + 1) := by
  obtain ⟨nodes, hcore, _⟩ := hinv.rep
  obtain ⟨hkeeps, rfl, hlt, hleast⟩ := oldestAbove_eq_some hcore hfound
  rw [(hinv.kept kept hkeeps).state_eq]
  refine stateBelow_congr fun write hwrite => ⟨fun hbelow => ?_, fun hbelow => by omega⟩
  by_contra habove
  -- a write between the snapshot and the state would have left an older one
  rcases hinv.covered id hid kept.coord write hwrite (by omega) with
    ⟨other, hother, hcoord, hlow, hle⟩ | hpending
  · have := hleast other hother hcoord hlow
    omega
  · obtain ⟨t', w, left, waiting, hthread, hpublishing, hmem, hcoord, htag⟩ :=
      hinv.of_pending hpending
    have := hpublishing.tags_lt waiting hmem kept hkeeps hcoord.symm
    omega

/-- What a read at a registered snapshot returns. -/
theorem Inv.returned {copied : StoredState} (hreading : s.Reading initial id coord copied)
    (hid : s.Registered id) :
    s.Returned initial ⟨id, s.snapshotVersion id, coord,
      ((s.history.oldestAbove coord (s.snapshotVersion id)).map TxnKeptState.state).getD copied⟩ := by
  refine ⟨hreading.lt_next, rfl, hreading.isSealed, ?_⟩
  cases hfound : s.history.oldestAbove coord (s.snapshotVersion id) with
  | some kept => exact hinv.state_oldestAbove hid hfound
  | none =>
    rcases hreading.copied_eq with hcopied | hkept
    · exact hcopied
    · obtain ⟨kept, hkeeps, hcoord, hlt⟩ := hkept hid
      obtain ⟨nodes, hcore, _⟩ := hinv.rep
      exact absurd hlt (oldestAbove_eq_none hcore hfound kept hkeeps hcoord)

theorem Inv.addRead {read : TxnRead} (hread : s.Returned initial read) :
    { s with reads := s.reads ++ [read] }.Inv initial :=
  hinv.quiet_threads
    { Quiet.refl hinv with
      reads_of := fun other hmem => (mem_append.mp hmem).imp_right fun hnew => by
        obtain rfl := mem_singleton.mp hnew
        exact hread } rfl hinv.rep hinv.fresh

theorem Inv.readVisit {now : ℕ} {copied : StoredState} {found : Option StoredState}
    (hthread : s.threads t = .reading id coord copied) (hnone : s.registering = none)
    (hfound : (s.history.visitAt now id coord).2 = .ok found) :
    Inv initial { s.setThread t .idle with
      history := (s.history.visitAt now id coord).1
      reads := s.reads ++ [⟨id, (s.history.snapshot id).version, coord, found.getD copied⟩] } := by
  obtain ⟨hrep, hshrinks⟩ := expireLocked_spec (hinv.rep_none hnone) now
  have hexpired := hinv.shrink hnone hrep hshrinks
  have hok := hexpired.ok hthread
  unfold visitAt at hfound ⊢
  dsimp only at hfound ⊢
  cases hrequire : (s.history.expireLocked now).requireRegistered id with
  | error e =>
    rw [hrequire] at hfound
    cases hfound
  | ok u =>
    rw [hrequire] at hfound
    cases hfound
    rw [← hshrinks.version_eq id]
    have hreturned := hexpired.returned hok (requireRegistered_eq_ok.mp hrequire)
    refine Inv.idle (hexpired.addRead hreturned) ?_
    change (s.threads t).pending = []
    rw [hthread]
    rfl

/-! ### Validation -/

/-- A transaction that holds its locks finds a chunk changed exactly when a write above its
snapshot is committed. -/
theorem Inv.changed_iff (hthread : s.threads t = .locking w held []) (hid : s.Registered id) :
    (∃ coord ∈ w.coords, (s.history.oldestAbove coord (s.snapshotVersion id)).isSome = true)
      ↔ ∃ coord ∈ w.coords, ∃ write ∈ writesTo s.log coord, s.snapshotVersion id < write.1 := by
  obtain ⟨nodes, hcore, _⟩ := hinv.rep
  constructor
  · rintro ⟨coord, hcoord, hsome⟩
    obtain ⟨kept, hfound⟩ := Option.isSome_iff_exists.mp hsome
    obtain ⟨hkeeps, rfl, hlt, _⟩ := oldestAbove_eq_some hcore hfound
    obtain ⟨write, hwrite, htag⟩ := (hinv.kept kept hkeeps).committed
    exact ⟨kept.coord, hcoord, write, hwrite, htag ▸ hlt⟩
  · rintro ⟨coord, hcoord, write, hwrite, hlt⟩
    refine ⟨coord, hcoord, ?_⟩
    rw [Option.isSome_iff_ne_none]
    intro hnone
    rcases hinv.covered id hid coord write hwrite hlt with ⟨kept, hkeeps, hsame, habove, _⟩ | hpending
    · exact oldestAbove_eq_none hcore hnone kept hkeeps hsame habove
    · -- the write that still publishes would hold the chunk's lock as well
      obtain ⟨t', w', left, kept, hthread', hpublishing, hkept, rfl, _⟩ := hinv.of_pending hpending
      have hok := hinv.ok hthread
      have hheld : held = w.targets := (append_nil held).symm.trans hok.2.2
      obtain ⟨exclusive, htarget⟩ := TxnWrite.mem_coords.mp hcoord
      have hne : t' ≠ t := by
        rintro rfl
        rw [hthread] at hthread'
        cases hthread'
      refine hinv.locks t' t hne kept.coord exclusive ?_ ?_
      · rw [hthread']
        exact hpublishing.mem_targets kept hkept
      · rw [hthread]
        exact hheld ▸ htarget

theorem Inv.validate {now : ℕ} (hthread : s.threads t = .locking w held [])
    (hid : w.snapshot? = some id) (hnone : s.registering = none)
    (hvalid : (s.history.validateAndEnd now id w.coords).2 = .ok ()) :
    { s.setThread t (.validated w) with
      history := (s.history.validateAndEnd now id w.coords).1 }.Inv initial := by
  obtain ⟨hrep, hshrinks⟩ := expireLocked_spec (hinv.rep_none hnone) now
  have hexpired := hinv.shrink hnone hrep hshrinks
  obtain ⟨hrep', hshrinks', hended⟩ :=
    validateAndEnd_spec (hinv.rep_none hnone) now id w.coords
  have hinv' := hinv.shrink hnone hrep' hshrinks'
  have hok := hinv.ok hthread
  have hheld : held = w.targets := (append_nil held).symm.trans hok.2.2
  have hown : ∀ id' ∈ w.snapshot?, id' = id := fun id' hmem =>
    Option.some.inj ((Option.mem_def.mp hmem).symm.trans hid)
  refine hinv'.setThread ⟨hok.1, hok.2.1, fun id' hmem => ?_, fun id' hmem => ?_⟩
    (hinv'.compatible ?_) nofun ?_
  · rw [hown id' hmem]
    exact fun hreg => Bool.noConfusion (hended.symm.trans hreg)
  · rw [hown id' hmem]
    intro coord hcoord write hwrite
    by_contra hlt
    obtain ⟨hreg, hunchanged⟩ := validateAndEnd_eq_ok hvalid
    have hsame : ({ s with history := s.history.expireLocked now } : TxnStore).snapshotVersion id
        = (s.history.snapshot id).version := hshrinks.version_eq id
    obtain ⟨coord', hcoord', hsome⟩ := (hexpired.changed_iff hthread hreg).mpr
      ⟨coord, hcoord, write, hwrite, by
        rw [hsame, ← hshrinks'.version_eq id]
        exact not_le.mp hlt⟩
    exact Bool.noConfusion ((hunchanged coord' hcoord').symm.trans hsome)
  · change (TxnThread.validated w).held ⊆ (s.threads t).held
    rw [hthread]
    change w.targets ⊆ held
    rw [hheld]
    exact List.Subset.refl _
  · change (s.threads t).pending ⊆ _
    rw [hthread]
    exact nil_subset _

theorem Quiet.takeVersion (hthread : s.threads t = .validated w)
    (changes : List (ChunkCoord × ChunkState)) :
    Quiet initial s { s.setThread t (.versioned w changes s.clock) with clock := s.clock + 1 } where
  __ := Quiet.refl hinv
  clock_le := Nat.le_succ _
  snapshot_lt := fun id => (hinv.snapshot_lt id).trans (Nat.lt_succ_self _)
  sampled_lt := fun version heq => (hinv.sampled_lt version heq).trans (Nat.lt_succ_self _)
  sealed_of := by
    intro coord version hsealed
    refine ⟨hsealed.1.trans (Nat.lt_succ_self _), (hsealed.setThread fun taken hself _ => ?_).2⟩
    exact hsealed.1.trans_eq (Option.some.inj hself)
  pending_of := fun _ _ hold => by
    refine Pending.setThread hold ?_
    rw [hthread]
    exact nil_subset _

/-- The version that a write takes is above everything committed and registered. -/
theorem Inv.takeVersion (hthread : s.threads t = .validated w) :
    { s.setThread t (.versioned w (w.changes s.chunks) s.clock) with
      clock := s.clock + 1 }.Inv initial := by
  have hquiet := Quiet.takeVersion hinv hthread (w.changes s.chunks)
  have hvalidated : s.Validated w := hinv.ok hthread
  have hlocks : s.Compatible t (TxnThread.versioned w (w.changes s.chunks) s.clock).held :=
    hinv.compatible (by rw [hthread]; exact List.Subset.refl _)
  refine hinv.quiet hquiet hinv.rep (hlocks.locks hinv) (fun t' => ?_)
    (hinv.taken_ne_setThread fun version hself t' _ hother => ?_) hinv.fresh
  · by_cases heq : t' = t
    · subst heq
      refine .inr ?_
      rw [show ({ s.setThread t' (.versioned w (w.changes s.chunks) s.clock) with
        clock := s.clock + 1 } : TxnStore).threads t'
          = .versioned w (w.changes s.chunks) s.clock from threads_setThread_self]
      have hheld : (TxnThread.validated w).held = w.targets := rfl
      exact { hvalidated.frame hheld (hquiet.frame _) with
        lt_clock := Nat.lt_succ_self _
        changes_eq := rfl
        writes_lt := by
          intro coord _ write hwrite
          obtain ⟨commit, hcommit, state, _, rfl⟩ := mem_writesTo.mp hwrite
          exact hinv.commits_lt commit hcommit
        commits_lt := fun _ _ commit hcommit _ => hinv.commits_lt commit hcommit
        commits_ne := fun commit hcommit => (hinv.commits_lt commit hcommit).ne
        snapshot_lt := fun id _ => hinv.snapshot_lt id }
    · refine .inl ?_
      rw [show ({ s.setThread t (.versioned w (w.changes s.chunks) s.clock) with
        clock := s.clock + 1 } : TxnStore).threads t' = s.threads t' from threads_setThread_of_ne heq]
      exact hinv.threadOk t'
  · have hlt := (hinv.threadOk t').taken_lt hother
    exact hlt.ne (Option.some.inj hself).symm

/-- Without an open transaction there is no snapshot below the version, now or later. -/
theorem Inv.prepare {changes : List (ChunkCoord × ChunkState)} {version : ℕ}
    (hthread : s.threads t = .versioned w changes version) :
    (s.setThread t (.prepared w changes version
      (if s.history.openCount = 0 then [] else changes.map fun change =>
        w.prepareKeep s.history.overhead change.1 version (s.chunks change.1)))).Inv initial := by
  have hversioned : s.Versioned w changes version := hinv.ok hthread
  refine hinv.setThread ⟨hversioned, ?_⟩
    (hinv.compatible (by rw [hthread]; exact List.Subset.refl _))
    (fun taken heq => ?_) (by rw [hthread]; exact nil_subset _)
  · by_cases hopen : s.history.openCount = 0
    · rw [if_pos hopen]
      obtain ⟨nodes, hcore, _⟩ := hinv.rep
      have hcount := hcore.openCount_eq
      rw [hopen] at hcount
      refine .inl ⟨rfl, fun id hid => ?_, fun sampled hphase => ?_⟩
      · have hmem := (hcore.mem_byVersion (s.snapshotVersion id, id)).mpr ⟨hid, rfl⟩
        have := length_pos_of_mem hmem
        omega
      · rw [counting, hphase] at hcount
        change 0 = _ + 1 at hcount
        omega
    · rw [if_neg hopen]
      exact .inr rfl
  · rw [hthread]
    exact ⟨heq, rfl⟩

end

end Threads

end TxnStore

end ChunkDb
