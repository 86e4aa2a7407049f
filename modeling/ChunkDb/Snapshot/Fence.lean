/-
# The snapshot generation fence

Writers change the files of a chunk only inside a `SnapshotGenerationWriteGuard`, and
readers of another process accept what they read between two equal even values of the
counter (`snapshot_generation.cpp`).  `SnapshotFence.Step` is one step of any thread:
the load that opens one of the three compare-and-swap loops, one round of it that
fails and loads again, or the round that succeeds.

A thread holds its guards like the stack of its scopes: a new guard is the innermost
one, and only the innermost one ends.  Two more fields record what no thread can see:
whether a guard was abandoned as failed, and whether a change of files was left
incomplete.
-/
import ChunkDb.Lib.Runs
import ChunkDb.Snapshot.Counter

namespace ChunkDb

open List Function

/-- What a thread is doing with the counter, and the value it has loaded. -/
inductive GuardOp
  | idle
  | beginning (current : UInt64)
  | finishing (current : UInt64)
  | abandoning (failEpoch : Bool) (current : UInt64)
  deriving DecidableEq

/-- A thread: its open guards, innermost first, each with whether a change of files made
inside it is incomplete. -/
structure GuardThread where
  torn : List Bool
  op : GuardOp
  deriving DecidableEq

/-- A writer session: the mapped counter, the threads, whether a guard of the session was
abandoned as failed, and whether files were left with an incomplete change. -/
structure SnapshotFence (T : Type) where
  counter : UInt64
  threads : T → GuardThread
  abandoned : Bool
  damaged : Bool

/-- The guards around an abandoned one go on with what it left incomplete. -/
def inheritTorn (torn : Bool) : List Bool → List Bool
  | [] => []
  | outer :: rest => (outer || torn) :: rest

@[simp] theorem length_inheritTorn (torn : Bool) (rest : List Bool) :
    (inheritTorn torn rest).length = rest.length := by
  cases rest <;> rfl

namespace SnapshotFence

variable {T : Type} [DecidableEq T]

/-- The thread with this state. -/
def setThread (s : SnapshotFence T) (t : T) (thread : GuardThread) : SnapshotFence T :=
  { s with threads := update s.threads t thread }

/-- The counter right after `SnapshotGenerationMapping::Initialize`; what the last writer
left may be incomplete. -/
def initial (T : Type) (damaged : Bool) : SnapshotFence T :=
  ⟨kGenerationOdd, fun _ => ⟨[], .idle⟩, false, damaged⟩

/-- One step of a thread. -/
inductive Step : SnapshotFence T → SnapshotFence T → Prop
  -- `FinishSnapshotGenerationRecovery`: recovery has completed every change of files
  | recover (s : SnapshotFence T) (h : s.counter = kGenerationOdd) :
      Step s { s with counter := kGenerationEpochStep, damaged := false }
  -- the constructor of a guard
  | beginLoad (s : SnapshotFence T) (t : T) (h : (s.threads t).op = .idle) :
      Step s (s.setThread t ⟨(s.threads t).torn, .beginning s.counter⟩)
  | beginThrow (s : SnapshotFence T) (t : T) {current : UInt64} {e : Exn}
      (h : (s.threads t).op = .beginning current) (hthrow : beginDesired current = .error e) :
      Step s (s.setThread t ⟨(s.threads t).torn, .idle⟩)
  | beginRetry (s : SnapshotFence T) (t : T) {current desired : UInt64}
      (h : (s.threads t).op = .beginning current) (hdesired : beginDesired current = .ok desired)
      (hne : s.counter ≠ current) :
      Step s (s.setThread t ⟨(s.threads t).torn, .beginning s.counter⟩)
  | beginSwap (s : SnapshotFence T) (t : T) {desired : UInt64}
      (h : (s.threads t).op = .beginning s.counter)
      (hdesired : beginDesired s.counter = .ok desired) :
      Step s { s.setThread t ⟨false :: (s.threads t).torn, .idle⟩ with counter := desired }
  -- a change of files inside the innermost guard begins and is completed
  | touch (s : SnapshotFence T) (t : T) {torn : Bool} {rest : List Bool}
      (h : s.threads t = ⟨torn :: rest, .idle⟩) :
      Step s (s.setThread t ⟨true :: rest, .idle⟩)
  | settle (s : SnapshotFence T) (t : T) {torn : Bool} {rest : List Bool}
      (h : s.threads t = ⟨torn :: rest, .idle⟩) :
      Step s (s.setThread t ⟨false :: rest, .idle⟩)
  -- `Finish`, called when the change is complete
  | finishLoad (s : SnapshotFence T) (t : T) {rest : List Bool}
      (h : s.threads t = ⟨false :: rest, .idle⟩) :
      Step s (s.setThread t ⟨false :: rest, .finishing s.counter⟩)
  | finishThrow (s : SnapshotFence T) (t : T) {current : UInt64} {e : Exn}
      (h : (s.threads t).op = .finishing current) (hthrow : finishDesired current = .error e) :
      Step s (s.setThread t ⟨(s.threads t).torn.tail, .idle⟩)
  | finishRetry (s : SnapshotFence T) (t : T) {current desired : UInt64}
      (h : (s.threads t).op = .finishing current) (hdesired : finishDesired current = .ok desired)
      (hne : s.counter ≠ current) :
      Step s (s.setThread t ⟨(s.threads t).torn, .finishing s.counter⟩)
  | finishSwap (s : SnapshotFence T) (t : T) {desired : UInt64}
      (h : (s.threads t).op = .finishing s.counter)
      (hdesired : finishDesired s.counter = .ok desired) :
      Step s { s.setThread t ⟨(s.threads t).torn.tail, .idle⟩ with counter := desired }
  -- the end of the last guard may fail before it is published, and abandons the guard
  | finishFails (s : SnapshotFence T) (t : T) {current : UInt64}
      (h : (s.threads t).op = .finishing current) (hlast : isLastGuard current = true)
      (hfailed : isFailedEpoch current = false) :
      Step s (s.setThread t ⟨(s.threads t).torn, .abandoning true s.counter⟩)
  -- the destructor of a guard that did not finish; a nested one leaves the epoch to the outer
  | abandonLoad (s : SnapshotFence T) (t : T) {torn : Bool} {rest : List Bool}
      (h : s.threads t = ⟨torn :: rest, .idle⟩) :
      Step s (s.setThread t ⟨torn :: rest, .abandoning rest.isEmpty s.counter⟩)
  | abandonRetry (s : SnapshotFence T) (t : T) {failEpoch : Bool} {current : UInt64}
      (h : (s.threads t).op = .abandoning failEpoch current) (hne : s.counter ≠ current) :
      Step s (s.setThread t ⟨(s.threads t).torn, .abandoning failEpoch s.counter⟩)
  | abandonSwap (s : SnapshotFence T) (t : T) {failEpoch torn : Bool} {rest : List Bool}
      (h : s.threads t = ⟨torn :: rest, .abandoning failEpoch s.counter⟩) :
      Step s { s.setThread t ⟨inheritTorn torn rest, .idle⟩ with
        counter := abandonDesired failEpoch s.counter
        abandoned := s.abandoned || failEpoch
        damaged := s.damaged || (torn && rest.isEmpty) }

/-- What a session can come to. -/
def Reachable (s : SnapshotFence T) : Prop :=
  ∃ damaged, Relation.ReflTransGen Step (initial T damaged) s

/-! ## Counting the guards -/

variable [Fintype T]

/-- The open guards of all threads. -/
def openGuards (s : SnapshotFence T) : ℕ := ∑ t, (s.threads t).torn.length

theorem openGuards_setThread (s : SnapshotFence T) (t : T) (thread : GuardThread) :
    (s.setThread t thread).openGuards + (s.threads t).torn.length
      = s.openGuards + thread.torn.length := by
  unfold openGuards setThread
  rw [← Finset.add_sum_erase _ _ (Finset.mem_univ t),
    ← Finset.add_sum_erase (a := t) Finset.univ (fun t => (s.threads t).torn.length)
      (Finset.mem_univ t)]
  have hrest : ∑ x ∈ Finset.univ.erase t, (update s.threads t thread x).torn.length
      = ∑ x ∈ Finset.univ.erase t, (s.threads x).torn.length := by
    refine Finset.sum_congr rfl fun x hx => ?_
    rw [update_of_ne (Finset.ne_of_mem_erase hx)]
  dsimp only
  rw [hrest, update_self]
  omega

omit [DecidableEq T] in
theorem openGuards_congr {s s' : SnapshotFence T} (h : s.threads = s'.threads) :
    s.openGuards = s'.openGuards := by
  unfold openGuards
  rw [h]

omit [DecidableEq T] in
theorem length_torn_le_openGuards (s : SnapshotFence T) (t : T) :
    (s.threads t).torn.length ≤ s.openGuards :=
  Finset.single_le_sum (f := fun t => (s.threads t).torn.length) (fun _ _ => Nat.zero_le _)
    (Finset.mem_univ t)

/-! ## What holds of every session -/

/-- A thread in the middle of ending a guard has one, and saw it counted. -/
structure ThreadFenced (thread : GuardThread) : Prop where
  finishing : ∀ current, thread.op = .finishing current →
    activeGuards current ≠ 0 ∧ ∃ rest, thread.torn = false :: rest
  abandoning : ∀ failEpoch current, thread.op = .abandoning failEpoch current →
    ∃ torn rest, thread.torn = torn :: rest ∧ (torn = true → rest = [] → failEpoch = true)

/-- The counter says what the threads do. -/
structure Fenced (s : SnapshotFence T) : Prop where
  guards : activeGuards s.counter = s.openGuards
  failed : isFailedEpoch s.counter = s.abandoned
  odd_of_guard : s.openGuards ≠ 0 → isOddGeneration s.counter = true
  odd_of_failed : s.abandoned = true → isOddGeneration s.counter = true
  room : s.openGuards ≠ 0 → completedEpochs s.counter + 1 < 2 ^ 46
  recovering : completedEpochs s.counter = 0 → isOddGeneration s.counter = true ∧ s.openGuards = 0
  damage : s.damaged = true → s.abandoned = true ∨ completedEpochs s.counter = 0
  threads : ∀ t, ThreadFenced (s.threads t)

theorem threadFenced_idle (torn : List Bool) : ThreadFenced ⟨torn, .idle⟩ :=
  ⟨nofun, nofun⟩

theorem threadFenced_beginning (torn : List Bool) (current : UInt64) :
    ThreadFenced ⟨torn, .beginning current⟩ :=
  ⟨nofun, nofun⟩

omit [Fintype T] in
/-- A step of one thread among the others. -/
theorem threads_setThread {s : SnapshotFence T} (h : ∀ t, ThreadFenced (s.threads t)) (t : T)
    {thread : GuardThread} (hthread : ThreadFenced thread) (t' : T) :
    ThreadFenced ((s.setThread t thread).threads t') := by
  unfold setThread
  by_cases heq : t' = t
  · subst heq
    dsimp only
    rw [update_self]
    exact hthread
  · dsimp only
    rw [update_of_ne heq]
    exact h t'

namespace Fenced

variable {s : SnapshotFence T}

omit [DecidableEq T] in
/-- The fence of a counter with these fields. -/
theorem of_fields (hthreads : ∀ t, ThreadFenced (s.threads t)) {epochs : ℕ} {odd : Bool}
    (hfields : CounterFields s.counter epochs s.openGuards s.abandoned odd)
    (hodd : s.openGuards ≠ 0 → odd = true) (hfailed : s.abandoned = true → odd = true)
    (hroom : s.openGuards ≠ 0 → epochs + 1 < 2 ^ 46)
    (hrecovering : epochs = 0 → odd = true ∧ s.openGuards = 0)
    (hdamage : s.damaged = true → s.abandoned = true ∨ epochs = 0) : s.Fenced := by
  obtain ⟨rfl, hguards, hfailed', rfl⟩ := hfields
  exact ⟨hguards, hfailed', hodd, hfailed, hroom, hrecovering, hdamage, hthreads⟩

/-- A load, a failed round and a change of files leave the counter and the guards. -/
theorem keep (h : s.Fenced) (t : T) (thread : GuardThread)
    (hlength : thread.torn.length = (s.threads t).torn.length) (hthread : ThreadFenced thread) :
    (s.setThread t thread).Fenced := by
  have hopen : (s.setThread t thread).openGuards = s.openGuards := by
    have := s.openGuards_setThread t thread
    omega
  refine .of_fields (threads_setThread h.threads t hthread) ⟨rfl, ?_, h.failed, rfl⟩ ?_
    h.odd_of_failed ?_ ?_ h.damage <;> rw [hopen]
  exacts [h.guards, h.odd_of_guard, h.room, h.recovering]

omit [DecidableEq T] in
/-- A thread with a guard sees it counted. -/
theorem activeGuards_ne_zero (h : s.Fenced) {t : T} (ht : (s.threads t).torn ≠ []) :
    activeGuards s.counter ≠ 0 := by
  have hle := s.length_torn_le_openGuards t
  have hpos := length_pos_iff.mpr ht
  rw [h.guards]
  omega

/-- What the fields say about a counter that a round replaced. -/
theorem swap (h : s.Fenced) (t : T) {thread : GuardThread} (hthread : ThreadFenced thread)
    {counter : UInt64} {abandoned damaged : Bool} {epochs guards : ℕ} {odd : Bool}
    (hfields : CounterFields counter epochs guards abandoned odd)
    (hguards : guards + (s.threads t).torn.length = s.openGuards + thread.torn.length)
    (hodd : guards ≠ 0 → odd = true) (hfailed : abandoned = true → odd = true)
    (hroom : guards ≠ 0 → epochs + 1 < 2 ^ 46) (hepochs : epochs ≠ 0)
    (hdamage : damaged = true → abandoned = true) :
    Fenced { s.setThread t thread with
      counter := counter, abandoned := abandoned, damaged := damaged } := by
  have hopen : ({ s.setThread t thread with
      counter := counter, abandoned := abandoned, damaged := damaged } : SnapshotFence T).openGuards
      = guards := by
    have hset := s.openGuards_setThread t thread
    have hsame : ({ s.setThread t thread with
        counter := counter, abandoned := abandoned, damaged := damaged } : SnapshotFence T).openGuards
        = (s.setThread t thread).openGuards := openGuards_congr rfl
    omega
  refine .of_fields (threads_setThread h.threads t hthread) (hopen ▸ hfields) ?_ hfailed ?_
    (fun hzero => absurd hzero hepochs) fun hd => .inl (hdamage hd) <;> rw [hopen]
  exacts [hodd, hroom]

/-- Every step keeps the fence. -/
theorem step (h : s.Fenced) {s' : SnapshotFence T} (hstep : Step s s') : s'.Fenced := by
  cases hstep with
  | recover hcounter =>
    have hguards := h.guards
    have hfailed := h.failed
    rw [hcounter, show activeGuards kGenerationOdd = 0 from by decide +kernel] at hguards
    rw [hcounter, show isFailedEpoch kGenerationOdd = false from by decide +kernel] at hfailed
    have hopen : ({ s with counter := kGenerationEpochStep, damaged := false }
        : SnapshotFence T).openGuards = 0 := (openGuards_congr rfl).trans hguards.symm
    have hfields : CounterFields kGenerationEpochStep 1 0 false false := by
      constructor <;> decide +kernel
    refine .of_fields h.threads (hopen.symm ▸ hfailed ▸ hfields) (fun hne => absurd hopen hne)
      (fun ha => ?_) (fun hne => absurd hopen hne) (fun hzero => by cases hzero)
      nofun
    exact absurd (hfailed.trans ha) (by decide)
  | beginLoad t ht =>
    exact h.keep t ⟨(s.threads t).torn, .beginning s.counter⟩ rfl (threadFenced_beginning _ _)
  | beginThrow t ht hthrow =>
    exact h.keep t ⟨(s.threads t).torn, .idle⟩ rfl (threadFenced_idle _)
  | beginRetry t ht hdesired hne =>
    exact h.keep t ⟨(s.threads t).torn, .beginning s.counter⟩ rfl (threadFenced_beginning _ _)
  | beginSwap t ht hdesired =>
    obtain ⟨hfailed, hodd, hcount, hepoch, hfields⟩ := beginDesired_eq_ok hdesired
    have ha : s.abandoned = false := by rw [← h.failed, hfailed]
    -- the epoch of recovery lets no guard in
    have hpos : completedEpochs s.counter ≠ 0 := by
      intro hzero
      obtain ⟨hoddc, hopen⟩ := h.recovering hzero
      exact hodd hoddc (h.guards.trans hopen)
    rw [← ha] at hfields
    have hguards := h.guards
    refine h.swap t (threadFenced_idle _) hfields ?_ (fun _ => rfl) (fun _ => rfl)
      (fun _ => hepoch) hpos ?_
    · rw [length_cons]
      omega
    · intro hd
      rcases h.damage hd with hab | hzero
      · exact hab
      · exact absurd hzero hpos
  | touch t ht =>
    refine h.keep t _ ?_ (threadFenced_idle _)
    rw [ht]
    rfl
  | settle t ht =>
    refine h.keep t _ ?_ (threadFenced_idle _)
    rw [ht]
    rfl
  | finishLoad t ht =>
    have hne := h.activeGuards_ne_zero (t := t) (by rw [ht]; exact cons_ne_nil _ _)
    refine h.keep t _ (by rw [ht]) ⟨?_, nofun⟩
    intro current hop
    obtain rfl := GuardOp.finishing.inj hop
    exact ⟨hne, _, rfl⟩
  | finishThrow t ht hthrow =>
    -- the guard was counted when the loop loaded the counter
    obtain ⟨hne, _⟩ := (h.threads t).finishing _ ht
    rw [finishDesired, if_neg (mt and_mask_eq_zero_iff.mp hne)] at hthrow
    cases hthrow
  | finishRetry t ht hdesired hne =>
    obtain ⟨_, rest, htorn⟩ := (h.threads t).finishing _ ht
    refine h.keep t ⟨(s.threads t).torn, .finishing s.counter⟩ rfl ⟨?_, nofun⟩
    intro current hop
    obtain rfl := GuardOp.finishing.inj hop
    exact ⟨h.activeGuards_ne_zero (t := t) (by rw [htorn]; exact cons_ne_nil _ _), rest, htorn⟩
  | @finishSwap t desired ht hdesired =>
    obtain ⟨hne, rest, htorn⟩ := (h.threads t).finishing _ ht
    have hguards := h.guards
    have hlength : (s.threads t).torn.length = rest.length + 1 := by rw [htorn]; rfl
    have htail : (s.threads t).torn.tail.length = rest.length := by rw [htorn]; rfl
    have hopen : s.openGuards ≠ 0 := by omega
    have hpos : completedEpochs s.counter ≠ 0 := fun hzero => hopen (h.recovering hzero).2
    have hdamage : s.damaged = true → s.abandoned = true := fun hd =>
      (h.damage hd).resolve_right hpos
    by_cases hkeep : activeGuards s.counter ≠ 1 ∨ isFailedEpoch s.counter = true
    · obtain ⟨_, hfields⟩ := finishDesired_keeps hdesired hkeep
      rw [h.failed, h.odd_of_guard hopen] at hfields
      refine h.swap t (threadFenced_idle _) hfields ?_ (fun _ => rfl) (fun _ => rfl)
        (fun _ => h.room hopen) hpos hdamage
      rw [hlength, htail]
      omega
    · rw [not_or, not_ne_iff, Bool.not_eq_true] at hkeep
      obtain ⟨hone, hnot⟩ := hkeep
      have hfields := finishDesired_last hdesired hone hnot (h.room hopen)
      have ha : s.abandoned = false := by rw [← h.failed, hnot]
      have hfields' : CounterFields desired (completedEpochs s.counter + 1) 0 s.abandoned false := by
        rw [ha]
        exact hfields
      have hnone : s.abandoned = true → false = true := fun hab => ha.symm.trans hab
      refine h.swap t (threadFenced_idle _) hfields' ?_ (fun hz => absurd rfl hz) hnone
        (fun hz => absurd rfl hz) (Nat.succ_ne_zero _) hdamage
      rw [hlength, htail]
      omega
  | finishFails t ht hlast hfailed =>
    obtain ⟨_, rest, htorn⟩ := (h.threads t).finishing _ ht
    refine h.keep t ⟨(s.threads t).torn, .abandoning true s.counter⟩ rfl ⟨nofun, fun _ _ _ => ?_⟩
    exact ⟨false, rest, htorn, nofun⟩
  | abandonLoad t ht =>
    refine h.keep t _ (by rw [ht]) ⟨nofun, fun failEpoch _ hop => ?_⟩
    obtain ⟨rfl, _⟩ := GuardOp.abandoning.inj hop
    exact ⟨_, _, rfl, fun _ hrest => by rw [hrest]; rfl⟩
  | @abandonRetry t failEpoch current ht hne =>
    refine h.keep t ⟨(s.threads t).torn, .abandoning failEpoch s.counter⟩ rfl
      ⟨nofun, fun _ _ hop => ?_⟩
    obtain ⟨rfl, _⟩ := GuardOp.abandoning.inj hop
    exact (h.threads t).abandoning _ _ ht
  | @abandonSwap t failEpoch torn rest ht =>
    have hguards := h.guards
    have hlength : (s.threads t).torn.length = rest.length + 1 := by rw [ht]; rfl
    have hle := s.length_torn_le_openGuards t
    have hopen : s.openGuards ≠ 0 := by omega
    have hpos : completedEpochs s.counter ≠ 0 := fun hzero => hopen (h.recovering hzero).2
    have hsome : activeGuards s.counter ≠ 0 := by omega
    have hfields := abandonDesired_fields failEpoch hsome
    rw [h.failed, h.odd_of_guard hopen, Bool.true_or] at hfields
    refine h.swap t (threadFenced_idle _) hfields ?_ (fun _ => rfl) (fun _ => rfl)
      (fun _ => h.room hopen) hpos ?_
    · rw [hlength, length_inheritTorn]
      omega
    · intro hd
      rw [Bool.or_eq_true, Bool.and_eq_true, List.isEmpty_iff] at hd
      rw [Bool.or_eq_true]
      rcases hd with hd | ⟨htorn, hrest⟩
      · exact .inl ((h.damage hd).resolve_right hpos)
      · -- nobody is left to complete the change: the guard failed the epoch
        obtain ⟨torn', rest', heq, hfail⟩ := (h.threads t).abandoning failEpoch s.counter (by rw [ht])
        rw [ht] at heq
        obtain ⟨rfl, rfl⟩ := List.cons.inj heq
        exact .inr (hfail htorn hrest)

end Fenced

theorem fenced_initial (T : Type) [Fintype T] (damaged : Bool) : (initial T damaged).Fenced := by
  have hopen : (initial T damaged).openGuards = 0 :=
    Finset.sum_eq_zero fun _ _ => rfl
  have hfields : CounterFields kGenerationOdd 0 0 false true := by
    constructor <;> decide +kernel
  exact .of_fields (fun _ => threadFenced_idle _) (hopen.symm ▸ hfields) (fun _ => rfl)
    (fun _ => rfl) (fun hne => absurd hopen hne) (fun _ => ⟨rfl, hopen⟩) fun _ => .inr rfl

variable {s s' : SnapshotFence T}

/-- Every run keeps the fence. -/
theorem Fenced.run (h : s.Fenced) (hrun : Relation.ReflTransGen Step s s') : s'.Fenced :=
  Runs.invariant (I := Fenced) hrun h fun _ _ hs hstep => hs.step hstep

theorem Reachable.fenced (h : s.Reachable) : s.Fenced := by
  obtain ⟨damaged, hrun⟩ := h
  exact (fenced_initial T damaged).run hrun

/-! ## What a reader may conclude

The epochs and the parity together only grow, so a value that a reader sees twice was
there all along. -/

/-- The completed epochs, with the one in progress as half of one. -/
def generationRank (counter : UInt64) : ℕ :=
  2 * completedEpochs counter + (isOddGeneration counter).toNat

/-- A step leaves the epoch, or is the one that completes it with no guard open. -/
theorem Fenced.step_epochs (h : s.Fenced) (hstep : Step s s') :
    completedEpochs s'.counter = completedEpochs s.counter
        ∧ (isOddGeneration s.counter = true → isOddGeneration s'.counter = true)
      ∨ completedEpochs s'.counter = completedEpochs s.counter + 1
        ∧ isOddGeneration s.counter = true ∧ isOddGeneration s'.counter = false
        ∧ s'.openGuards = 0 := by
  have hguards' := (h.step hstep).guards
  cases hstep with
  | recover hcounter =>
    right
    rw [← hguards', hcounter]
    change completedEpochs kGenerationEpochStep = completedEpochs kGenerationOdd + 1
      ∧ isOddGeneration kGenerationOdd = true ∧ isOddGeneration kGenerationEpochStep = false
      ∧ activeGuards kGenerationEpochStep = 0
    decide +kernel
  | beginSwap t ht hdesired =>
    obtain ⟨_, _, _, _, hfields⟩ := beginDesired_eq_ok hdesired
    exact .inl ⟨hfields.epochs_eq, fun _ => hfields.odd_eq⟩
  | @finishSwap t desired ht hdesired =>
    obtain ⟨hne, _⟩ := (h.threads t).finishing _ ht
    have hopen : s.openGuards ≠ 0 := by rw [← h.guards]; exact hne
    by_cases hkeep : activeGuards s.counter ≠ 1 ∨ isFailedEpoch s.counter = true
    · obtain ⟨_, hfields⟩ := finishDesired_keeps hdesired hkeep
      exact .inl ⟨hfields.epochs_eq, fun hodd => hfields.odd_eq.trans hodd⟩
    · rw [not_or, not_ne_iff, Bool.not_eq_true] at hkeep
      have hfields := finishDesired_last hdesired hkeep.1 hkeep.2 (h.room hopen)
      exact .inr ⟨hfields.epochs_eq, h.odd_of_guard hopen, hfields.odd_eq,
        hguards'.symm.trans hfields.guards_eq⟩
  | @abandonSwap t failEpoch torn rest ht =>
    have hne := h.activeGuards_ne_zero (t := t) (by rw [ht]; exact cons_ne_nil _ _)
    have hfields := abandonDesired_fields failEpoch hne
    exact .inl ⟨hfields.epochs_eq, fun hodd => by rw [hfields.odd_eq, hodd, Bool.true_or]⟩
  -- a load, a round that fails and a change of files do not write the counter
  | _ => exact .inl ⟨rfl, id⟩

theorem Fenced.step_rank (h : s.Fenced) (hstep : Step s s') :
    generationRank s.counter ≤ generationRank s'.counter := by
  unfold generationRank
  rcases h.step_epochs hstep with ⟨hepochs, hodd⟩ | ⟨hepochs, hodd, _, _⟩
  · rw [hepochs]
    refine Nat.add_le_add_left ?_ _
    cases hs : isOddGeneration s.counter with
    | false => exact Nat.zero_le _
    | true => rw [hodd hs]
  · rw [hepochs, hodd]
    change _ + 1 ≤ _
    omega

theorem Fenced.run_rank (h : s.Fenced) (hrun : Relation.ReflTransGen Step s s') :
    generationRank s.counter ≤ generationRank s'.counter := by
  induction hrun with
  | refl => exact Nat.le_refl _
  | tail hbefore hstep ih => exact ih.trans ((h.run hbefore).step_rank hstep)

omit [Fintype T] in
/-- A failure of the session is not forgotten. -/
theorem run_abandoned (hrun : Relation.ReflTransGen Step s s') (h : s.abandoned = true) :
    s'.abandoned = true :=
  Runs.invariant (I := fun s : SnapshotFence T => s.abandoned = true) hrun h fun s s' hs hstep => by
    cases hstep with
    | abandonSwap => exact Bool.or_eq_true_iff.mpr (.inl hs)
    | _ => exact hs

omit [DecidableEq T] in
theorem Fenced.even (h : s.Fenced) (heven : isOddGeneration s.counter = false) :
    s.openGuards = 0 ∧ s.abandoned = false := by
  constructor
  · by_contra hne
    rw [h.odd_of_guard hne] at heven
    cases heven
  · by_contra hne
    rw [h.odd_of_failed (by simpa using hne)] at heven
    cases heven

/-- Between two equal even observations the counter was even. -/
theorem Fenced.even_between (h : s.Fenced) {middle : SnapshotFence T}
    (hbefore : Relation.ReflTransGen Step s middle) (hafter : Relation.ReflTransGen Step middle s')
    (hstable : stableObservation s.counter s'.counter = true) :
    isOddGeneration middle.counter = false := by
  obtain ⟨heven, hequal⟩ := stableObservation_iff.mp hstable
  have hlow := h.run_rank hbefore
  have hhigh := (h.run hbefore).run_rank hafter
  rw [← hequal] at hhigh
  have hrank : generationRank middle.counter = generationRank s.counter := by omega
  unfold generationRank at hrank
  rw [heven, Bool.toNat_false] at hrank
  by_contra hodd
  rw [Bool.not_eq_false] at hodd
  rw [hodd, Bool.toNat_true] at hrank
  omega

/-- In every state that any threads can bring a writer session to: the word is made of the
epochs, of as many guards as are open and of whether one was abandoned as failed; a step
completes an epoch only by publishing even with no guard open; an even counter means no open
and no failed guard; what a reader accepts was read while no guard was open; and a failed
epoch stays odd. -/
theorem snapshotFence_of_reachable (h : s.Reachable) :
    (s.openGuards < 2 ^ 16
      ∧ s.counter.toNat = completedEpochs s.counter * 2 ^ 18 + s.openGuards * 4
          + s.abandoned.toNat * 2 + (isOddGeneration s.counter).toNat)
    ∧ (∀ s', Step s s' → completedEpochs s'.counter ≠ completedEpochs s.counter →
        completedEpochs s'.counter = completedEpochs s.counter + 1
          ∧ isOddGeneration s'.counter = false ∧ s'.openGuards = 0)
    ∧ (isOddGeneration s.counter = false → s.openGuards = 0 ∧ s.abandoned = false)
    ∧ (∀ middle s', Relation.ReflTransGen Step s middle → Relation.ReflTransGen Step middle s' →
        stableObservation s.counter s'.counter = true → middle.openGuards = 0)
    ∧ (∀ s', Relation.ReflTransGen Step s s' → isFailedEpoch s.counter = true →
        isOddGeneration s'.counter = true) := by
  have hf := h.fenced
  refine ⟨⟨?_, ?_⟩, ?_, hf.even, ?_, ?_⟩
  · rw [← hf.guards]
    exact Nat.mod_lt _ (by decide)
  · rw [← hf.guards, ← hf.failed]
    exact toNat_eq_fields s.counter
  · intro s' hstep hne
    rcases hf.step_epochs hstep with ⟨hsame, _⟩ | ⟨hepochs, _, heven, hopen⟩
    · exact absurd hsame hne
    · exact ⟨hepochs, heven, hopen⟩
  · intro middle s' hbefore hafter hstable
    exact ((hf.run hbefore).even (hf.even_between hbefore hafter hstable)).1
  · intro s' hrun hfailed
    rw [hf.failed] at hfailed
    exact (hf.run hrun).odd_of_failed (run_abandoned hrun hfailed)

/-- One thread recovers the store and opens a guard. -/
def guarded : SnapshotFence Unit :=
  ⟨kGenerationEpochStep + kGenerationCountOne + kGenerationOdd, fun _ => ⟨[false], .idle⟩, false,
    false⟩

theorem guarded_reachable : guarded.Reachable := by
  refine ⟨true, .tail (.tail (.single (Step.recover _ rfl)) (Step.beginLoad _ () rfl)) ?_⟩
  have hdesired : beginDesired kGenerationEpochStep
      = .ok (kGenerationEpochStep + kGenerationCountOne + kGenerationOdd) := by decide +kernel
  have hstep := Step.beginSwap (T := Unit)
    (setThread { initial Unit true with counter := kGenerationEpochStep, damaged := false } ()
      ⟨[], .beginning kGenerationEpochStep⟩) () rfl hdesired
  have hthreads : (fun _ => ⟨[false], .idle⟩ : Unit → GuardThread)
      = update (update (initial Unit true).threads ()
          ⟨[], .beginning kGenerationEpochStep⟩) () ⟨[false], .idle⟩ := by
    funext t
    rfl
  unfold guarded
  rw [hthreads]
  exact hstep

theorem snapshotFence_of_guarded :
    guarded.openGuards = 1 ∧ guarded.counter.toNat
      = completedEpochs guarded.counter * 2 ^ 18 + guarded.openGuards * 4
          + guarded.abandoned.toNat * 2 + (isOddGeneration guarded.counter).toNat :=
  ⟨rfl, (snapshotFence_of_reachable guarded_reachable).1.2⟩

end SnapshotFence

end ChunkDb
