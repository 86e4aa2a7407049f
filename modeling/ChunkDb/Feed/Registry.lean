/-
# The producers of a table and its completed versions

A write guard loads the clock, announces it as the lower bound of its producer, takes a
version, publishes its change or not, and clears the bound.  `Completed`,
`CompletedFrontier` and `Watermark` load the clock first, then the list of producers, then
one bound after the other.  All of them run interleaved, each atomic access a step of its own.
-/
import ChunkDb.Lib.Runs
import ChunkDb.VersionClock

namespace ChunkDb

open List Function

/-! ## The model -/

/-- Where the write guard of a producer is. -/
inductive GuardPhase
  | idle
  /-- The clock is loaded, and the bound not stored yet. -/
  | loaded (lower : ℕ)
  | announced
  | taken (version : ℕ)
  /-- After `Commit`; the bound is still set. -/
  | published (version : ℕ)
  deriving DecidableEq

/-- What an observer was asked. -/
inductive ObserverKind
  /-- `CompletedFrontier` and `Watermark`. -/
  | frontier
  /-- `Completed` of this version. -/
  | completed (through : ℕ)
  deriving DecidableEq

/-- Where an observer is. -/
inductive ObserverPhase
  | idle
  | sampled (kind : ObserverKind) (lower : ℕ)
  | scanning (kind : ObserverKind) (lower : ℕ) (rest : List ℕ)
  | answered (version : ℕ)
  deriving DecidableEq

/-- The first version the answer does not cover. -/
def ObserverKind.limit (lower : ℕ) : ObserverKind → ℕ
  | frontier => lower
  | completed through => through + 1

/-- The version that is answered to be complete. -/
def ObserverKind.answer (lower : ℕ) : ObserverKind → ℕ
  | frontier => (lower + kMaxUInt64) % 2 ^ 64
  | completed through => through

/-- The clock, the producers with their bounds and guards, and the observers; and what was
taken, settled, published and answered so far. -/
structure Registry where
  clock : ℕ
  /-- The registered producers, the newest first. -/
  producers : List ℕ
  bound : ℕ → ℕ
  guard : ℕ → GuardPhase
  observer : ℕ → ObserverPhase
  /-- The largest clock an observer loaded. -/
  sampled : ℕ
  taken : List ℕ
  /-- The versions whose change is published or that finished without one. -/
  settled : List ℕ
  published : List ℕ
  answers : List ℕ

namespace Registry

variable (r : Registry)

/-- A store before its first write. -/
def initial (clock : ℕ) : Registry :=
  ⟨clock, [], fun _ => 0, fun _ => .idle, fun _ => .idle, clock, [], [], [], []⟩

/-- Producer `p` with another guard and bound. -/
def setGuard (p : ℕ) (phase : GuardPhase) (bound : ℕ) : Registry :=
  { r with guard := update r.guard p phase, bound := update r.bound p bound }

/-- `NextChunkVersion` under the guard of `p`. -/
def take (p : ℕ) : Registry :=
  { r.setGuard p (.taken r.clock) (r.bound p) with
    clock := (r.clock + 1) % 2 ^ 64, taken := r.taken ++ [r.clock] }

/-- `Commit` of the guard of `p`. -/
def publish (p version : ℕ) : Registry :=
  { r.setGuard p (.published version) (r.bound p) with
    settled := r.settled ++ [version], published := r.published ++ [version] }

/-- The guard of `p` ends; `unpublished` is the version it gives up. -/
def finish (p : ℕ) (unpublished : List ℕ) : Registry :=
  { r.setGuard p .idle 0 with settled := r.settled ++ unpublished }

/-- Observer `i` somewhere else. -/
def setObserver (i : ℕ) (phase : ObserverPhase) : Registry :=
  { r with observer := update r.observer i phase }

/-- The load of the clock an observer starts with. -/
def sample (i : ℕ) (kind : ObserverKind) : Registry :=
  { r.setObserver i (.sampled kind r.clock) with sampled := max r.sampled r.clock }

/-- The answer of an observer that has read every bound. -/
def answer (i version : ℕ) : Registry :=
  { r.setObserver i (.answered version) with answers := r.answers ++ [version] }

end Registry

/-- The version a guard gives up when it ends. -/
def GuardPhase.unpublished : GuardPhase → List ℕ
  | taken version => [version]
  | _ => []

/-- The observer after it read the bound of a producer; `none` if `Completed` answers false. -/
def ObserverKind.scan (lower bound : ℕ) : ObserverKind → Option ℕ
  | frontier => some (if bound = 0 then lower else min lower bound)
  | completed through => if bound ≠ 0 ∧ bound ≤ through then none else some lower

/-- The steps of the guards, other than `Commit`, and of the clock. -/
inductive GuardStep (r : Registry) : Registry → Prop
  | register {p} (h : p ∉ r.producers) : GuardStep r { r with producers := p :: r.producers }
  | load {p} (hp : p ∈ r.producers) (h : r.guard p = .idle) :
      GuardStep r (r.setGuard p (.loaded r.clock) (r.bound p))
  | announce {p lower} (h : r.guard p = .loaded lower) : GuardStep r (r.setGuard p .announced lower)
  | take {p} (h : r.guard p = .announced) : GuardStep r (r.take p)
  | finish {p} (h : r.guard p ≠ .idle) : GuardStep r (r.finish p (r.guard p).unpublished)
  /-- `NextChunkVersion` outside a guard. -/
  | skip : GuardStep r { r with clock := (r.clock + 1) % 2 ^ 64 }
  | raise {revision} : GuardStep r { r with clock := max r.clock (revision + 1) }

/-- The steps of the observers. -/
inductive ObserverStep (r : Registry) (i : ℕ) : Registry → Prop
  | sample {kind} (h : r.observer i = .idle) (hlt : kind.limit r.clock ≤ r.clock) :
      ObserverStep r i (r.sample i kind)
  | head {kind lower} (h : r.observer i = .sampled kind lower) :
      ObserverStep r i (r.setObserver i (.scanning kind lower r.producers))
  | scan {kind lower q rest lower'} (h : r.observer i = .scanning kind lower (q :: rest))
      (hscan : kind.scan lower (r.bound q) = some lower') :
      ObserverStep r i (r.setObserver i (.scanning kind lower' rest))
  | refuse {kind lower q rest} (h : r.observer i = .scanning kind lower (q :: rest))
      (hscan : kind.scan lower (r.bound q) = none) :
      ObserverStep r i (r.setObserver i .idle)
  | answer {kind lower} (h : r.observer i = .scanning kind lower []) :
      ObserverStep r i (r.answer i (kind.answer lower))
  | leave {version} (h : r.observer i = .answered version) :
      ObserverStep r i (r.setObserver i .idle)

/-- The steps of a run. -/
inductive RegistryStep (r : Registry) : Registry → Prop
  | guard {r'} (h : GuardStep r r') : RegistryStep r r'
  | publish {p version} (h : r.guard p = .taken version) : RegistryStep r (r.publish p version)
  | observer {i r'} (h : ObserverStep r i r') : RegistryStep r r'

/-- A step of a run whose counter stays below `2 ^ 64 - 1`. -/
def Registry.BoundedStep (before after : Registry) : Prop :=
  RegistryStep before after ∧ after.clock < kMaxUInt64

/-! ## What every run keeps -/

/-- Every version up to `v` is settled, and none will be taken any more. -/
structure Registry.Closed (r : Registry) (v : ℕ) : Prop where
  lt_clock : v < r.clock
  lt_taken : ∀ p x, r.guard p = .taken x → v < x

/-- What a guard knows of its bound and of the clock. -/
def GuardPhase.Fits (bound clock : ℕ) : GuardPhase → Prop
  | idle => bound = 0
  | loaded lower => bound = 0 ∧ 0 < lower ∧ lower ≤ clock
  | announced => 0 < bound ∧ bound ≤ clock
  | taken version | published version => 0 < bound ∧ bound ≤ version ∧ version < clock

/-- What an observer knows: a version below its limit that is not settled is one of a producer
it has not read yet. -/
def Registry.ObserverFits (r : Registry) : ObserverPhase → Prop
  | .idle => True
  | .sampled kind lower => 0 < lower ∧ kind.limit lower ≤ lower ∧ lower ≤ r.clock
  | .scanning kind lower rest => 0 < lower ∧ kind.limit lower ≤ lower ∧ lower ≤ r.clock
    ∧ ∀ p x, r.guard p = .taken x → kind.limit lower ≤ x ∨ p ∈ rest
  | .answered version => r.Closed version

/-- What holds in every state of a run. -/
structure Registry.Inv (r : Registry) : Prop where
  clock_pos : 0 < r.clock
  clock_lt : r.clock < kMaxUInt64
  guards : ∀ p, (r.guard p).Fits (r.bound p) r.clock
  registered : ∀ p, r.guard p ≠ .idle → p ∈ r.producers
  taken_lt : ∀ x ∈ r.taken, x < r.clock
  settled : ∀ x ∈ r.taken, x ∈ r.settled ∨ ∃ p, r.guard p = .taken x
  observers : ∀ i, r.ObserverFits (r.observer i)
  answers : ∀ v ∈ r.answers, r.Closed v

namespace GuardPhase

/-- A later clock fits too. -/
theorem Fits.mono {phase : GuardPhase} {bound clock clock' : ℕ} (h : phase.Fits bound clock)
    (hle : clock ≤ clock') : phase.Fits bound clock' := by
  cases phase with
  | idle => exact h
  | loaded lower => exact ⟨h.1, h.2.1, h.2.2.trans hle⟩
  | announced => exact ⟨h.1, h.2.trans hle⟩
  | taken version => exact ⟨h.1, h.2.1, h.2.2.trans_le hle⟩
  | published version => exact ⟨h.1, h.2.1, h.2.2.trans_le hle⟩

end GuardPhase

namespace Registry

variable {r r' : Registry} {v : ℕ}

/-- The versions that are not settled become fewer or come from the clock. -/
structure Later (r r' : Registry) : Prop where
  clock_le : r.clock ≤ r'.clock
  taken : ∀ p x, r'.guard p = .taken x → r.guard p = .taken x ∨ r.clock ≤ x

theorem Later.of_guard (h : r'.guard = r.guard) (hle : r.clock ≤ r'.clock) : Later r r' :=
  ⟨hle, fun _ _ hx => Or.inl (by rwa [← h])⟩

theorem Closed.later (h : r.Closed v) (hlater : Later r r') : r'.Closed v where
  lt_clock := h.lt_clock.trans_le hlater.clock_le
  lt_taken p x hx := by
    rcases hlater.taken p x hx with hold | hnew
    · exact h.lt_taken p x hold
    · exact h.lt_clock.trans_le hnew

theorem ObserverFits.later {phase : ObserverPhase} (h : r.ObserverFits phase)
    (hlater : Later r r') : r'.ObserverFits phase := by
  cases phase with
  | idle => trivial
  | sampled kind lower => exact ⟨h.1, h.2.1, h.2.2.trans hlater.clock_le⟩
  | scanning kind lower rest =>
    obtain ⟨hpos, hlimit, hclock, hrest⟩ := h
    refine ⟨hpos, hlimit, hclock.trans hlater.clock_le, fun p x hx => ?_⟩
    rcases hlater.taken p x hx with hold | hnew
    · exact hrest p x hold
    · exact Or.inl (hlimit.trans (hclock.trans hnew))
  | answered version => exact Closed.later h hlater

@[simp]
theorem guard_setGuard (r : Registry) (p q : ℕ) (phase : GuardPhase) (bound : ℕ) :
    (r.setGuard p phase bound).guard q = if q = p then phase else r.guard q :=
  update_apply ..

@[simp]
theorem bound_setGuard (r : Registry) (p q : ℕ) (phase : GuardPhase) (bound : ℕ) :
    (r.setGuard p phase bound).bound q = if q = p then bound else r.bound q :=
  update_apply ..

variable {clock : ℕ}

theorem succ_mod_of_lt (h : clock < kMaxUInt64) : (clock + 1) % 2 ^ 64 = clock + 1 := by
  unfold kMaxUInt64 at h
  exact Nat.mod_eq_of_lt (by omega)

/-- A guard moves on: the change of one producer, with the clock and the versions after it. -/
theorem Inv.withGuard (h : r.Inv) {p bound : ℕ} {phase : GuardPhase}
    {taken settled published : List ℕ}
    (hlater : Later r { r.setGuard p phase bound with clock, taken, settled, published })
    (hlt : clock < kMaxUInt64) (hfits : phase.Fits bound clock)
    (hregistered : phase ≠ .idle → p ∈ r.producers)
    (htaken : ∀ x ∈ taken, x ∈ r.taken ∨ phase = .taken x ∧ x < clock)
    (hsettled : ∀ x ∈ r.settled, x ∈ settled)
    (hgone : ∀ x, r.guard p = .taken x → phase = .taken x ∨ x ∈ settled) :
    { r.setGuard p phase bound with clock, taken, settled, published }.Inv := by
  constructor
  case clock_pos => exact h.clock_pos.trans_le hlater.clock_le
  case clock_lt => exact hlt
  case guards =>
    intro q
    change ((r.setGuard p phase bound).guard q).Fits ((r.setGuard p phase bound).bound q) clock
    rw [guard_setGuard, bound_setGuard]
    split
    · exact hfits
    · exact (h.guards q).mono hlater.clock_le
  case registered =>
    intro q hq
    change (r.setGuard p phase bound).guard q ≠ _ at hq
    rw [guard_setGuard] at hq
    split at hq
    · rename_i hqp
      rw [hqp]
      exact hregistered hq
    · exact h.registered q hq
  case taken_lt =>
    intro x hx
    rcases htaken x hx with hold | ⟨_, hlt⟩
    · exact (h.taken_lt x hold).trans_le hlater.clock_le
    · exact hlt
  case settled =>
    intro x hx
    change x ∈ settled ∨ ∃ q, (r.setGuard p phase bound).guard q = _
    rcases htaken x hx with hold | ⟨hphase, _⟩
    · rcases h.settled x hold with hdone | ⟨q, hq⟩
      · exact Or.inl (hsettled x hdone)
      · by_cases hqp : q = p
        · rw [hqp] at hq
          rcases hgone x hq with hphase | hdone
          · exact Or.inr ⟨p, by rw [guard_setGuard, if_pos rfl, hphase]⟩
          · exact Or.inl hdone
        · exact Or.inr ⟨q, by rw [guard_setGuard, if_neg hqp, hq]⟩
    · exact Or.inr ⟨p, by rw [guard_setGuard, if_pos rfl, hphase]⟩
  case observers => exact fun i => (h.observers i).later hlater
  case answers => exact fun v hv => (h.answers v hv).later hlater

/-- Only the clock moves on. -/
theorem Inv.withClock (h : r.Inv) (hlater : Later r { r with clock }) (hlt : clock < kMaxUInt64) :
    { r with clock }.Inv where
  __ := h
  clock_pos := h.clock_pos.trans_le hlater.clock_le
  clock_lt := hlt
  guards p := (h.guards p).mono hlater.clock_le
  taken_lt x hx := (h.taken_lt x hx).trans_le hlater.clock_le
  observers i := (h.observers i).later hlater
  answers v hv := (h.answers v hv).later hlater

end Registry

variable {r r' : Registry} {i : ℕ}

/-- A step of a guard takes versions from the clock only. -/
theorem GuardStep.later (h : GuardStep r r') (hlt : r.clock < kMaxUInt64) :
    Registry.Later r r' := by
  have hset : ∀ {p phase}, (∀ x, phase = .taken x → r.clock ≤ x) → ∀ q x,
      update r.guard p phase q = .taken x → r.guard q = .taken x ∨ r.clock ≤ x := by
    intro p phase hnew q x hq
    rw [update_apply] at hq
    split at hq
    · exact Or.inr (hnew x hq)
    · exact Or.inl hq
  cases h with
  | register => exact .of_guard rfl le_rfl
  | load => exact ⟨le_rfl, hset nofun⟩
  | announce => exact ⟨le_rfl, hset nofun⟩
  | take =>
    refine ⟨?_, hset ?_⟩
    · exact (Nat.le_succ _).trans_eq (Registry.succ_mod_of_lt hlt).symm
    · rintro x ⟨⟩
      exact le_rfl
  | finish => exact ⟨le_rfl, hset nofun⟩
  | skip => exact .of_guard rfl ((Nat.le_succ _).trans_eq (Registry.succ_mod_of_lt hlt).symm)
  | raise => exact .of_guard rfl (le_max_left ..)

theorem Registry.later_publish (r : Registry) (p version : ℕ) :
    Registry.Later r (r.publish p version) := by
  refine ⟨le_rfl, fun q x hq => ?_⟩
  change (r.setGuard p (.published version) (r.bound p)).guard q = _ at hq
  rw [Registry.guard_setGuard] at hq
  split at hq
  · exact nomatch hq
  · exact Or.inl hq

theorem ObserverStep.later (h : ObserverStep r i r') : Registry.Later r r' := by
  cases h <;> exact .of_guard rfl le_rfl

theorem RegistryStep.later (h : RegistryStep r r') (hlt : r.clock < kMaxUInt64) :
    Registry.Later r r' := by
  cases h with
  | guard hguard => exact hguard.later hlt
  | publish => exact r.later_publish ..
  | observer hobserver => exact hobserver.later

/-- A step of a guard or of the clock keeps the invariant. -/
theorem GuardStep.inv (h : GuardStep r r') (hinv : r.Inv) (hlt : r'.clock < kMaxUInt64) :
    r'.Inv := by
  have hlater := h.later hinv.clock_lt
  cases h with
  | register hp =>
    exact { hinv with
      registered := fun q hq => mem_cons_of_mem _ (hinv.registered q hq)
      observers := fun i => (hinv.observers i).later hlater
      answers := fun v hv => (hinv.answers v hv).later hlater }
  | @load p hp hidle =>
    have hbound : r.bound p = 0 := by
      have := hinv.guards p
      rwa [hidle] at this
    refine hinv.withGuard hlater hinv.clock_lt ⟨hbound, hinv.clock_pos, le_rfl⟩ (fun _ => hp)
      (fun x hx => Or.inl hx) (fun x hx => hx) (fun x hx => ?_)
    rw [hidle] at hx
    exact nomatch hx
  | @announce p lower hloaded =>
    have hfits := hinv.guards p
    rw [hloaded] at hfits
    refine hinv.withGuard hlater hinv.clock_lt ⟨hfits.2.1, hfits.2.2⟩ (fun _ => ?_)
      (fun x hx => Or.inl hx) (fun x hx => hx) (fun x hx => ?_)
    · exact hinv.registered p (by rw [hloaded]; exact GuardPhase.noConfusion)
    · rw [hloaded] at hx
      exact nomatch hx
  | @take p hannounced =>
    have hfits := hinv.guards p
    rw [hannounced] at hfits
    unfold Registry.take at hlt hlater ⊢
    rw [Registry.succ_mod_of_lt hinv.clock_lt] at hlt hlater ⊢
    refine hinv.withGuard hlater hlt ⟨hfits.1, hfits.2, Nat.lt_succ_self _⟩ (fun _ => ?_)
      (fun x hx => ?_) (fun x hx => hx) (fun x hx => ?_)
    · exact hinv.registered p (by rw [hannounced]; exact GuardPhase.noConfusion)
    · rcases mem_append.mp hx with hx | hx
      · exact Or.inl hx
      · obtain rfl := mem_singleton.mp hx
        exact Or.inr ⟨rfl, Nat.lt_succ_self _⟩
    · rw [hannounced] at hx
      exact nomatch hx
  | @finish p hbusy =>
    refine hinv.withGuard hlater hinv.clock_lt rfl (fun h => absurd rfl h)
      (fun x hx => Or.inl hx) (fun x hx => mem_append_left _ hx) (fun x hx => Or.inr ?_)
    rw [hx]
    exact mem_append_right _ (mem_singleton_self x)
  | skip => exact hinv.withClock hlater hlt
  | raise => exact hinv.withClock hlater hlt

namespace Registry

variable {r : Registry}

/-- `Commit` keeps the invariant. -/
theorem Inv.publish (hinv : r.Inv) {p version : ℕ} (h : r.guard p = .taken version) :
    (r.publish p version).Inv := by
  have hfits := hinv.guards p
  rw [h] at hfits
  refine hinv.withGuard (r.later_publish p version) hinv.clock_lt hfits (fun _ => ?_)
    (fun x hx => Or.inl hx) (fun x hx => mem_append_left _ hx) (fun x hx => Or.inr ?_)
  · exact hinv.registered p (by rw [h]; exact GuardPhase.noConfusion)
  · rw [h] at hx
    cases hx
    exact mem_append_right _ (mem_singleton_self _)

/-- An observer moves on, perhaps with an answer. -/
theorem Inv.withObserver (hinv : r.Inv) (i : ℕ) {phase : ObserverPhase} {sampled : ℕ}
    {answers : List ℕ} (hfits : r.ObserverFits phase)
    (hanswers : ∀ v ∈ answers, v ∈ r.answers ∨ r.Closed v) :
    { r.setObserver i phase with sampled, answers }.Inv := by
  have hlater : Later r { r.setObserver i phase with sampled, answers } := .of_guard rfl le_rfl
  refine { hinv with
    observers := fun j => ?_
    answers := fun v hv => ((hanswers v hv).elim (hinv.answers v) id).later hlater }
  change ObserverFits _ (update r.observer i phase j)
  rw [update_apply]
  split
  · exact hfits.later hlater
  · exact (hinv.observers j).later hlater

/-- Reading a bound lowers the limit to it, or `Completed` answers false. -/
theorem scan_spec {kind : ObserverKind} {lower bound lower' : ℕ}
    (h : kind.scan lower bound = some lower') (hpos : 0 < lower)
    (hlimit : kind.limit lower ≤ lower) :
    0 < lower' ∧ kind.limit lower' ≤ lower' ∧ lower' ≤ lower
      ∧ kind.limit lower' ≤ kind.limit lower ∧ (bound ≠ 0 → kind.limit lower' ≤ bound) := by
  cases kind with
  | frontier =>
    cases h
    unfold ObserverKind.limit
    split
    · rename_i hzero
      exact ⟨hpos, le_rfl, le_rfl, le_rfl, fun hne => absurd hzero hne⟩
    · rename_i hne
      exact ⟨lt_min hpos (Nat.pos_of_ne_zero hne), le_rfl, min_le_left .., min_le_left ..,
        fun _ => min_le_right ..⟩
  | completed through =>
    change (if bound ≠ 0 ∧ bound ≤ through then none else some lower) = some lower' at h
    split at h
    · exact nomatch h
    · rename_i hnot
      cases h
      refine ⟨hpos, hlimit, le_rfl, le_rfl, fun hne => ?_⟩
      exact not_le.mp fun hle => hnot ⟨hne, hle⟩

/-- The answer is the version before the limit. -/
theorem answer_lt (kind : ObserverKind) {lower : ℕ} (hpos : 0 < lower)
    (hlt : lower < kMaxUInt64) : kind.answer lower + 1 = kind.limit lower := by
  cases kind with
  | frontier =>
    change (lower + kMaxUInt64) % 2 ^ 64 + 1 = lower
    unfold kMaxUInt64 at *
    omega
  | completed through => rfl

end Registry

/-- A step of an observer keeps the invariant. -/
theorem ObserverStep.inv (h : ObserverStep r i r') (hinv : r.Inv) : r'.Inv := by
  have hfits := hinv.observers i
  cases h with
  | @sample kind hidle hlimit =>
    exact hinv.withObserver i ⟨hinv.clock_pos, hlimit, le_rfl⟩ fun _ => Or.inl
  | @head kind lower hphase =>
    rw [hphase] at hfits
    refine hinv.withObserver i ⟨hfits.1, hfits.2.1, hfits.2.2, fun p x hx => Or.inr ?_⟩ fun _ => Or.inl
    exact hinv.registered p (by rw [hx]; exact GuardPhase.noConfusion)
  | @scan kind lower q rest lower' hphase hscan =>
    rw [hphase] at hfits
    obtain ⟨hpos, hlimit, hclock, hrest⟩ := hfits
    obtain ⟨hpos', hlimit', hle, hlow, hbound⟩ := Registry.scan_spec hscan hpos hlimit
    refine hinv.withObserver i ⟨hpos', hlimit', hle.trans hclock, fun p x hx => ?_⟩ fun _ => Or.inl
    rcases hrest p x hx with hge | hmem
    · exact Or.inl (hlow.trans hge)
    · rcases mem_cons.mp hmem with rfl | hmem
      · have hguard := hinv.guards p
        rw [hx] at hguard
        exact Or.inl ((hbound hguard.1.ne').trans hguard.2.1)
      · exact Or.inr hmem
  | refuse => exact hinv.withObserver i trivial fun _ => Or.inl
  | @answer kind lower hphase =>
    rw [hphase] at hfits
    obtain ⟨hpos, hlimit, hclock, hrest⟩ := hfits
    have hanswer := Registry.answer_lt kind hpos (hclock.trans_lt hinv.clock_lt)
    have hclosed : r.Closed (kind.answer lower) := by
      refine ⟨by omega, fun p x hx => ?_⟩
      rcases hrest p x hx with hge | hmem
      · omega
      · exact nomatch hmem
    refine hinv.withObserver i hclosed fun v hv => (mem_append.mp hv).imp_right fun hv => ?_
    rwa [mem_singleton.mp hv]
  | leave => exact hinv.withObserver i trivial fun _ => Or.inl

/-- A step of a run whose counter stays in range keeps the invariant. -/
theorem Registry.BoundedStep.inv (h : r.BoundedStep r') (hinv : r.Inv) : r'.Inv := by
  obtain ⟨hstep, hlt⟩ := h
  cases hstep with
  | guard hguard => exact hguard.inv hinv hlt
  | publish htaken => exact hinv.publish htaken
  | observer hobserver => exact hobserver.inv hinv

theorem Registry.inv_initial {clock : ℕ} (hpos : 0 < clock) (hlt : clock < kMaxUInt64) :
    (Registry.initial clock).Inv := by
  constructor <;> simp [Registry.initial, GuardPhase.Fits, Registry.ObserverFits, hpos, hlt]

/-- What a step adds to the versions taken and published. -/
theorem RegistryStep.logs (h : RegistryStep r r') :
    (∀ x ∈ r'.taken, x ∈ r.taken ∨ r.clock ≤ x)
      ∧ ∀ x ∈ r'.published, x ∈ r.published ∨ ∃ p, r.guard p = .taken x := by
  have hsame : (∀ x ∈ r.taken, x ∈ r.taken ∨ r.clock ≤ x)
      ∧ ∀ x ∈ r.published, x ∈ r.published ∨ ∃ p, r.guard p = .taken x :=
    ⟨fun _ hx => Or.inl hx, fun _ hx => Or.inl hx⟩
  cases h with
  | guard hguard =>
    cases hguard with
    | take =>
      refine ⟨fun x hx => ?_, hsame.2⟩
      rcases mem_append.mp hx with hx | hx
      · exact Or.inl hx
      · exact Or.inr (mem_singleton.mp hx).ge
    | register | load | announce | finish | skip | raise => exact hsame
  | @publish p version htaken =>
    refine ⟨hsame.1, fun x hx => ?_⟩
    rcases mem_append.mp hx with hx | hx
    · exact Or.inl hx
    · rw [mem_singleton.mp hx]
      exact Or.inr ⟨p, htaken⟩
  | observer hobserver => cases hobserver <;> exact hsame

/-- A version answered to be complete: all writes up to it are settled, and none up to it is
taken or published later. -/
theorem frontier_sound {clock : ℕ} (hpos : 0 < clock) (hlt : clock < kMaxUInt64)
    {r r' : Registry} (hrun : Relation.ReflTransGen Registry.BoundedStep (.initial clock) r)
    (hlater : Relation.ReflTransGen Registry.BoundedStep r r') {v : ℕ} (hv : v ∈ r.answers) :
    (∀ x ∈ r.taken, x ≤ v → x ∈ r.settled)
      ∧ (∀ x ∈ r'.taken, x ∉ r.taken → v < x)
      ∧ ∀ x ∈ r'.published, x ∉ r.published → v < x := by
  have hinv : r.Inv := Runs.invariant hrun (Registry.inv_initial hpos hlt)
    fun _ _ hinv hstep => hstep.inv hinv
  constructor
  · intro x hx hle
    rcases hinv.settled x hx with hdone | ⟨p, hp⟩
    · exact hdone
    · exact absurd ((hinv.answers v hv).lt_taken p x hp) (not_lt.mpr hle)
  -- from here on the version stays closed, so that every later one is above it
  have hkept : r'.Inv ∧ r'.Closed v ∧ (∀ x ∈ r'.taken, x ∈ r.taken ∨ v < x)
      ∧ ∀ x ∈ r'.published, x ∈ r.published ∨ v < x := by
    refine Runs.invariant (I := fun s : Registry => s.Inv ∧ s.Closed v
        ∧ (∀ x ∈ s.taken, x ∈ r.taken ∨ v < x) ∧ ∀ x ∈ s.published, x ∈ r.published ∨ v < x)
      hlater ⟨hinv, hinv.answers v hv, fun _ hx => Or.inl hx, fun _ hx => Or.inl hx⟩ ?_
    rintro s s' ⟨hs, hclosed, htaken, hpublished⟩ ⟨hstep, hbelow⟩
    obtain ⟨hlog, hlog'⟩ := hstep.logs
    refine ⟨Registry.BoundedStep.inv ⟨hstep, hbelow⟩ hs, hclosed.later (hstep.later hs.clock_lt),
      fun x hx => ?_, fun x hx => ?_⟩
    · rcases hlog x hx with hold | hnew
      · exact htaken x hold
      · exact Or.inr (hclosed.lt_clock.trans_le hnew)
    · rcases hlog' x hx with hold | ⟨p, hp⟩
      · exact hpublished x hold
      · exact Or.inr (hclosed.lt_taken p x hp)
  obtain ⟨_, _, htaken, hpublished⟩ := hkept
  exact ⟨fun x hx hold => (htaken x hx).resolve_left hold,
    fun x hx hold => (hpublished x hx).resolve_left hold⟩

/-! ## Answers that fall back -/

theorem Registry.guardStep (h : GuardStep r r') (hlt : r'.clock < kMaxUInt64 := by decide) :
    r.BoundedStep r' :=
  ⟨.guard h, hlt⟩

theorem Registry.observerStep (h : ObserverStep r i r')
    (hlt : r'.clock < kMaxUInt64 := by decide) : r.BoundedStep r' :=
  ⟨.observer h, hlt⟩

/-- A write of version 1 settles, and the observer answers 1. -/
theorem answerRun : ∃ r : Registry, Relation.ReflTransGen Registry.BoundedStep (.initial 1) r
    ∧ r.guard 0 = .idle ∧ 0 ∈ r.producers ∧ r.clock = 2 ∧ r.answers = [1] ∧ r.taken = [1] := by
  open Registry in
  refine ⟨_, .head (guardStep (.register (p := 0) (by decide))) <|
    .head (guardStep (.load (p := 0) (by decide) rfl)) <|
    .head (guardStep (.announce (p := 0) rfl)) <|
    .head (guardStep (.take (p := 0) rfl)) <|
    .head ⟨.publish (p := 0) rfl, by decide⟩ <|
    .head (guardStep (.finish (p := 0) (by decide))) <|
    .head (observerStep (@ObserverStep.sample _ 0 .frontier rfl (by decide))) <|
    .head (observerStep (i := 0) (.head rfl)) <|
    .head (observerStep (i := 0) (.scan rfl rfl)) <|
    .single (observerStep (i := 0) (.answer rfl)), ?_⟩
  exact ⟨rfl, by decide, rfl, rfl, rfl⟩

/-- After the answer 1 the next version that is taken is 2. -/
theorem frontier_sound_next : ∃ r r' : Registry, r.answers = [1] ∧ r'.taken = [1, 2]
    ∧ ∀ x ∈ r'.taken, x ∉ r.taken → 1 < x := by
  obtain ⟨r, hrun, hidle, hproducers, hclock, hanswers, htaken⟩ := answerRun
  have hbelow : r.clock < kMaxUInt64 := by
    rw [hclock]
    decide
  let r₁ := r.setGuard 0 (.loaded r.clock) (r.bound 0)
  let r₂ := r₁.setGuard 0 .announced r.clock
  have hload : r.BoundedStep r₁ := Registry.guardStep (.load hproducers hidle) hbelow
  have hannounce : r₁.BoundedStep r₂ :=
    Registry.guardStep (.announce rfl) hbelow
  have htake : r₂.BoundedStep (r₂.take 0) := by
    refine Registry.guardStep (.take rfl) ?_
    change (r.clock + 1) % 2 ^ 64 < kMaxUInt64
    rw [hclock]
    decide
  refine ⟨r, r₂.take 0, hanswers, ?_, ?_⟩
  · change r.taken ++ [r.clock] = [1, 2]
    rw [htaken, hclock]
    rfl
  · exact (frontier_sound (by decide) (by decide) hrun
      (.head hload (.head hannounce (.single htake))) (by rw [hanswers]; decide)).2.1

/-- A producer loads the clock, and announces it after another write settled and was answered to
be complete: the next call of the same observer answers a lower version. -/
theorem frontier_falls_back : ∃ r : Registry,
    Relation.ReflTransGen Registry.BoundedStep (.initial 1) r ∧ ¬ r.answers.Pairwise (· ≤ ·) := by
  suffices h : ∃ r : Registry, Relation.ReflTransGen Registry.BoundedStep (.initial 1) r
      ∧ r.answers = [1, 0] by
    obtain ⟨r, hrun, hanswers⟩ := h
    exact ⟨r, hrun, by rw [hanswers]; decide⟩
  open Registry in
  exact ⟨_, .head (guardStep (.register (p := 0) (by decide))) <|
    .head (guardStep (.register (p := 1) (by decide))) <|
    .head (guardStep (.load (p := 0) (by decide) rfl)) <|
    .head (guardStep (.load (p := 1) (by decide) rfl)) <|
    .head (guardStep (.announce (p := 1) rfl)) <|
    .head (guardStep (.take (p := 1) rfl)) <|
    .head ⟨.publish (p := 1) rfl, by decide⟩ <|
    .head (guardStep (.finish (p := 1) (by decide))) <|
    .head (observerStep (@ObserverStep.sample _ 0 .frontier rfl (by decide))) <|
    .head (observerStep (i := 0) (.head rfl)) <|
    .head (observerStep (i := 0) (.scan rfl rfl)) <|
    .head (observerStep (i := 0) (.scan rfl rfl)) <|
    .head (observerStep (i := 0) (.answer rfl)) <|
    .head (observerStep (i := 0) (.leave rfl)) <|
    .head (guardStep (.announce (p := 0) rfl)) <|
    .head (observerStep (@ObserverStep.sample _ 0 .frontier rfl (by decide))) <|
    .head (observerStep (i := 0) (.head rfl)) <|
    .head (observerStep (i := 0) (.scan rfl rfl)) <|
    .head (observerStep (i := 0) (.scan rfl rfl)) <|
    .single (observerStep (i := 0) (.answer rfl)), rfl⟩

end ChunkDb
