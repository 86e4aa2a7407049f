/-
# A removed right stops a watch

As long as no update grants the right back to the session's own user, a right once removed
is in no later view.  A check that answers "held" then proves that the right had not been
removed when it was made: at an unchanged generation because the last look-up at that generation
found it, at a moved one because the view read just now shows it.  So nothing that was pulled
after the removal is in the queue when `Write` runs.
-/
import ChunkDb.Feed.WatchRights

namespace ChunkDb

open List

/-! ## The registry's part -/

/-- What holds of the registry and the check, whatever updates are made. -/
structure RegistryInv (s : WatchSystem) : Prop where
  registry : s.registry.Inv
  pending : ∀ next, s.pending = some next → next.Inv ∧
    next.generation = s.registry.generation + 1 ∧
    s.registry.nextIncarnation ≤ next.nextIncarnation ∧
    (next.incarnations.find s.check.right.user = some s.check.right.incarnation →
      s.registry.incarnations.find s.check.right.user = some s.check.right.incarnation)
  incarnation : s.check.right.incarnation < s.registry.nextIncarnation

/-- What holds as long as the right is not granted back. -/
structure RemovalInv (s : WatchSystem) : Prop where
  removed : s.removed = true → s.check.right.readIn s.registry.rights = false
  pending : ∀ next, s.pending = some next → s.removed = true →
    s.check.right.readIn next.rights = false
  generation : s.check.generation ≤ s.registry.generation
  phase : ∀ forAck late generation, s.phase = .recheck forAck late generation →
    generation ≤ s.registry.generation
  held : s.check.state = .held → s.check.generation = s.registry.generation → s.removed = false

/-- The frames that are queued were all pulled before the removal. -/
def IoWatch.Timely (watch : IoWatch Bool) : Prop := ∀ item ∈ watch.output, item.frame = false

/-- What holds of the watch and of what it wrote and accepted. -/
structure OutputInv (s : WatchSystem) : Prop where
  late : ∀ item ∈ s.watch.output, item.frame = true → s.removed = true
  lost : s.watch.rightLost = true →
    (s.watch.dead = true ∨ s.watch.close = true) ∧ (s.watch.dead = true ∨ s.watch.Timely)
  write : s.phase = .write → s.watch.dead = true ∨ s.watch.Timely
  checked : ∀ forAck late, s.phase = .check forAck late → late = true → s.removed = true
  rechecked : ∀ forAck late generation, s.phase = .recheck forAck late generation →
    late = true → s.removed = true
  permitted : ∀ late, s.phase = .ackPermitted late → late = false
  written : ∀ late ∈ s.written, late = false
  acks : ∀ ack ∈ s.acks, ack.checkedLate = false

/-- What a phase promises of the watch and of the call of `Permitted` it belongs to. -/
def LoopPhase.Safe (watch : IoWatch Bool) (removed : Bool) : LoopPhase → Prop
  | .write => watch.dead = true ∨ watch.Timely
  | .check _ late => late = true → removed = true
  | .recheck _ late _ => late = true → removed = true
  | .ackPermitted late => late = false
  | _ => True

theorem OutputInv.of_phase {s : WatchSystem}
    (hlate : ∀ item ∈ s.watch.output, item.frame = true → s.removed = true)
    (hlost : s.watch.rightLost = true →
      (s.watch.dead = true ∨ s.watch.close = true) ∧ (s.watch.dead = true ∨ s.watch.Timely))
    (hphase : s.phase.Safe s.watch s.removed) (hwritten : ∀ late ∈ s.written, late = false)
    (hacks : ∀ ack ∈ s.acks, ack.checkedLate = false) : OutputInv s := by
  refine ⟨hlate, hlost, fun heq => ?_, fun _ _ heq => ?_, fun _ _ _ heq => ?_, fun _ heq => ?_,
    hwritten, hacks⟩ <;>
  · rw [heq] at hphase
    exact hphase

/-- Updates that do not grant the right back. -/
def NoRegrant (right : WatchRight) (registry : UserRegistry) (update : UserUpdate) : Prop :=
  ¬Regrants right registry update

variable {updates : UserRegistry → UserUpdate → Prop} {s t : WatchSystem}

/-- Nothing but a look-up changes the check, and no step the right it is of. -/
theorem WatchStep.right_eq (h : WatchStep updates s t) : t.check.right = s.check.right := by
  cases h <;> rfl

/-- The registry keeps its rules, and the incarnation of the session stays an old one. -/
theorem RegistryInv.step (h : RegistryInv s) (hstep : WatchStep updates s t) : RegistryInv t := by
  cases hstep with
  | install update outcome hidle hupdate hcommits =>
    refine ⟨h.registry, ?_, h.incarnation⟩
    intro next hnext
    cases hnext
    obtain ⟨hinv, hcontinues⟩ := h.registry.call update outcome
    exact ⟨hinv, hcommits, hcontinues.next_le,
      fun hfind => h.registry.incarnation_of_call h.incarnation hfind⟩
  | @commit registry hpending =>
    obtain ⟨hinv, -, hle, -⟩ := h.pending registry hpending
    exact ⟨hinv, nofun, h.incarnation.trans_le hle⟩
  | _ => exact ⟨h.registry, h.pending, h.incarnation⟩

/-- Once the session's user is gone, with that incarnation, it stays gone. -/
theorem RegistryInv.gone_step (h : RegistryInv s)
    (hgone : s.registry.incarnations.find s.check.right.user ≠ some s.check.right.incarnation)
    (hstep : WatchStep updates s t) :
    t.registry.incarnations.find t.check.right.user ≠ some t.check.right.incarnation := by
  cases hstep with
  | @commit registry hpending =>
    exact fun hfind => hgone ((h.pending registry hpending).2.2.2 hfind)
  | _ => exact hgone

/-- A view without the session's user says so. -/
theorem RegistryInv.lookUp_view (h : RegistryInv s)
    (hgone : s.registry.incarnations.find s.check.right.user ≠ some s.check.right.incarnation) :
    s.check.right.lookUp s.view = .noUser := by
  refine WatchRight.lookUp_eq_noUser ?_
  intro entry hentry heq
  unfold WatchSystem.view at hentry
  cases hpending : s.pending with
  | none =>
    rw [hpending] at hentry
    have hfind := (h.registry.of_find_rights hentry).1
    rw [heq] at hfind
    exact hgone hfind
  | some next =>
    rw [hpending] at hentry
    obtain ⟨hinv, -, -, horigin⟩ := h.pending next hpending
    have hfind := (hinv.of_find_rights hentry).1
    rw [heq] at hfind
    exact hgone (horigin hfind)

/-! ## The check's part -/

/-- A removed right is not in the view. -/
theorem RemovalInv.readIn_view (h : RemovalInv s) (hremoved : s.removed = true) :
    s.check.right.readIn s.view = false := by
  unfold WatchSystem.view
  cases hpending : s.pending with
  | none => exact h.removed hremoved
  | some next => exact h.pending next hpending hremoved

theorem RemovalInv.answer (h : RemovalInv s) (forAck late : Bool) (reply : IoOutput Bool) :
    RemovalInv (s.answer forAck late reply) := by
  refine ⟨h.removed, h.pending, h.generation, fun forAck' late' generation heq => ?_, h.held⟩
  unfold WatchSystem.answer at heq
  dsimp only at heq
  split_ifs at heq

/-- A check that finds the right proves that it was not removed. -/
theorem RemovalInv.recheck (h : RemovalInv s) (generation : ℕ) :
    (s.check.recheck generation s.view).state = .held → s.removed = false := by
  intro hheld
  refine Bool.eq_false_iff.mpr fun hremoved => ?_
  unfold ReadRightCheck.recheck at hheld
  dsimp only at hheld
  split at hheld
  next hstate => exact hstate hheld
  · have hread := WatchRight.readIn_of_lookUp hheld
    rw [h.readIn_view hremoved] at hread
    cases hread

theorem RemovalInv.step (h : RemovalInv s) (hreg : RegistryInv s)
    (hstep : WatchStep (NoRegrant s.check.right) s t) : RemovalInv t := by
  cases hstep with
  | install update outcome hidle hupdate hcommits =>
    refine ⟨h.removed, ?_, h.generation, h.phase, h.held⟩
    intro next hnext hremoved
    cases hnext
    refine Bool.eq_false_iff.mpr fun hread => ?_
    cases (h.removed hremoved).symm.trans
      (WatchRight.readIn_of_call hreg.registry hreg.incarnation hupdate hread)
  | @commit registry hpending =>
    obtain ⟨-, hgeneration, -, -⟩ := hreg.pending registry hpending
    have hle := h.generation
    refine ⟨?_, nofun, ?_, ?_, ?_⟩
    · intro hremoved
      rcases (Bool.or_eq_true _ _).mp hremoved with hold | hnew
      · exact h.pending registry hpending hold
      · simpa using hnew
    · change s.check.generation ≤ registry.generation
      omega
    · intro forAck late generation hphase
      have hold := h.phase forAck late generation hphase
      change generation ≤ registry.generation
      omega
    · -- The generation has moved past that of the last look-up.
      intro _ hsame
      have hsame' : s.check.generation = registry.generation := hsame
      omega
  | checkMoved hphase hlost hmoved =>
    refine ⟨h.removed, h.pending, h.generation, ?_, h.held⟩
    intro forAck late generation heq
    cases heq
    exact le_rfl
  | checkLost reply hphase hlost => exact h.answer _ _ _
  | checkSame reply hphase hlost hsame hreply => exact h.answer _ _ _
  | @recheck forAck late generation reply hphase hreply =>
    have hle := h.phase forAck late generation hphase
    have hnext : RemovalInv { s with check := s.check.recheck generation s.view } := by
      refine ⟨h.removed, h.pending, hle, h.phase, ?_⟩
      intro hheld _
      exact h.recheck generation hheld
    exact hnext.answer _ _ _
  | endPull hphase =>
    refine ⟨h.removed, h.pending, h.generation, ?_, h.held⟩
    intro forAck late generation heq
    dsimp only at heq
    split_ifs at heq
  | endRound hphase =>
    refine ⟨h.removed, h.pending, h.generation, ?_, h.held⟩
    intro forAck late generation heq
    dsimp only at heq
    split_ifs at heq
  | startAck hphase hopen hdead =>
    exact ⟨h.removed, h.pending, h.generation, nofun, h.held⟩
  | accept hphase =>
    exact ⟨h.removed, h.pending, h.generation, nofun, h.held⟩
  | refuse hphase =>
    exact ⟨h.removed, h.pending, h.generation, nofun, h.held⟩
  | endRead hphase =>
    exact ⟨h.removed, h.pending, h.generation, nofun, h.held⟩
  | _ => exact ⟨h.removed, h.pending, h.generation, h.phase, h.held⟩

/-! ## The queue's part -/

/-- `Permitted` that answers "held" leaves the queue, and one that does not ends the watch with
a reply or at once. -/
theorem OutputInv.answer (h : OutputInv s) {forAck late : Bool} {reply : IoOutput Bool}
    (hreply : s.watch.rightLost = false → reply.IsReply)
    (hlate : late = true → s.removed = true)
    (hheld : s.watch.rightLost = false → s.check.state = .held → s.removed = false) :
    OutputInv (s.answer forAck late reply) := by
  have htimely : s.removed = false → s.watch.Timely := by
    intro hremoved item hitem
    refine Bool.eq_false_iff.mpr fun hframe => ?_
    cases hremoved.symm.trans (h.late item hitem hframe)
  have hcases := s.watch.permitted_cases (some s.check.state) reply
  rcases hcases with ⟨hlost, hresult⟩ | ⟨hlost, hstate, hresult⟩ | ⟨hlost, hresult⟩
  · -- The right was lost before: nothing changes but the phase.
    have hanswer : s.answer forAck late reply =
        { s with phase := if forAck then .pull else .write } := by
      unfold WatchSystem.answer
      rw [hresult]
      cases forAck <;> rfl
    rw [hanswer]
    refine .of_phase h.late h.lost ?_ h.written h.acks
    cases forAck with
    | false => exact (h.lost hlost).2
    | true => trivial
  · -- The right is held, so it had not been removed and the queue is in time.
    have hremoved : s.removed = false := by
      rcases hstate with hnone | hsome
      · cases hnone
      · exact hheld hlost (Option.some.inj hsome)
    have hanswer : s.answer forAck late reply =
        { s with phase := if forAck then .ackPermitted late else .write } := by
      unfold WatchSystem.answer
      rw [hresult]
      cases forAck <;> rfl
    rw [hanswer]
    refine .of_phase h.late h.lost ?_ h.written h.acks
    cases forAck with
    | false => exact .inr (htimely hremoved)
    | true =>
      refine Bool.eq_false_iff.mpr fun htrue => ?_
      cases hremoved.symm.trans (hlate htrue)
  · -- The right is lost now: the queue is dropped for the reply, or the watch is dead.
    obtain ⟨watch, hwatch⟩ : ∃ watch, watch = (s.watch.permitted (some s.check.state) reply).2.1 :=
      ⟨_, rfl⟩
    have hanswer : s.answer forAck late reply =
        { s with watch := watch, phase := if forAck then .pull else .write } := by
      unfold WatchSystem.answer
      dsimp only
      rw [hwatch, hresult.1]
      cases forAck <;> rfl
    rw [← hwatch] at hresult
    rw [hanswer]
    obtain ⟨-, hends, hdone⟩ := hresult
    have hin : ∀ item ∈ watch.output, item.frame = true → s.removed = true := by
      intro item hitem hframe
      rcases hdone with ⟨-, houtput⟩ | houtput
      · rw [houtput] at hitem
        exact h.late item hitem hframe
      · rw [houtput, mem_singleton] at hitem
        rw [hitem, hreply hlost] at hframe
        cases hframe
    have hdead : watch.dead = true ∨ watch.Timely := by
      rcases hdone with ⟨hdead, -⟩ | houtput
      · exact .inl hdead
      · refine .inr ?_
        intro item hitem
        rw [houtput, mem_singleton] at hitem
        rw [hitem]
        exact hreply hlost
    refine .of_phase hin (fun _ => ⟨hends, hdead⟩) ?_ h.written h.acks
    cases forAck with
    | false => exact hdead
    | true => trivial

/-- What a write takes and what it leaves were queued. -/
theorem advanceLoop_mem {α : Type*} (output : List (IoOutput α)) (offset bytes : ℕ) :
    (∀ item ∈ (advanceLoop output offset bytes).output, item ∈ output) ∧
      ∀ part ∈ (advanceLoop output offset bytes).written, part.1 ∈ output := by
  induction output generalizing offset bytes with
  | nil => exact ⟨fun _ h => h, nofun⟩
  | cons front rest ih =>
    unfold advanceLoop
    split
    · exact ⟨fun _ h => h, nofun⟩
    · dsimp only
      split
      · obtain ⟨houtput, hwritten⟩ := ih 0 (bytes - min bytes (front.size - offset))
        refine ⟨fun item h => mem_cons_of_mem _ (houtput item h), ?_⟩
        intro part hpart
        rcases mem_cons.mp hpart with rfl | hrest
        · exact mem_cons_self
        · exact mem_cons_of_mem _ (hwritten part hrest)
      · refine ⟨fun _ h => h, ?_⟩
        intro part hpart
        rw [mem_singleton] at hpart
        rw [hpart]
        exact mem_cons_self

/-- The queue grows by an item. -/
theorem OutputInv.queued (h : OutputInv s) {item : IoOutput Bool}
    (hitem : item.frame = true → s.removed = true) :
    ∀ other ∈ (s.watch.queue item).output, other.frame = true → s.removed = true := by
  intro other hother hframe
  rcases mem_append.mp hother with hold | hnew
  · exact h.late other hold hframe
  · rw [mem_singleton] at hnew
    exact hitem (hnew ▸ hframe)

/-- A watch that is open and alive has not lost its right. -/
theorem OutputInv.rightLost_eq_false (h : OutputInv s) (hopen : s.watch.close = false)
    (hdead : s.watch.dead = false) : s.watch.rightLost = false := by
  by_contra hne
  rcases (h.lost (by simpa using hne)).1 with hd | hc
  · rw [hdead] at hd
    cases hd
  · rw [hopen] at hc
    cases hc

/-- The watch of a phase in `Read` or `Pull` changes while it is open and alive. -/
theorem OutputInv.setWatch (h : OutputInv s) {watch : IoWatch Bool}
    (hlate : ∀ item ∈ watch.output, item.frame = true → s.removed = true)
    (hlost : watch.rightLost = false) (hwrite : s.phase ≠ .write) :
    OutputInv { s with watch := watch } where
  late := hlate
  lost := fun htrue => by
    have htrue' : watch.rightLost = true := htrue
    rw [hlost] at htrue'
    cases htrue'
  write := fun heq => absurd heq hwrite
  __ := h

theorem OutputInv.step (h : OutputInv s) (hrem : RemovalInv s)
    (hstep : WatchStep (NoRegrant s.check.right) s t) : OutputInv t := by
  cases hstep with
  | install update outcome hidle hupdate hcommits =>
    exact ⟨h.late, h.lost, h.write, h.checked, h.rechecked, h.permitted, h.written, h.acks⟩
  | @commit registry hpending =>
    have hmono : s.removed = true →
        (s.removed || !s.check.right.readIn registry.rights) = true := by
      intro hremoved
      rw [hremoved]
      rfl
    exact ⟨fun item hitem hframe => hmono (h.late item hitem hframe), h.lost, h.write,
      fun forAck late heq hlate => hmono (h.checked forAck late heq hlate),
      fun forAck late generation heq hlate => hmono (h.rechecked forAck late generation heq hlate),
      h.permitted, h.written, h.acks⟩
  | reply item close unwatch returnReady hphase hreply hopen hdead =>
    refine h.setWatch (h.queued ?_) (h.rightLost_eq_false hopen hdead) (by rw [hphase]; simp)
    intro hframe
    rw [hreply] at hframe
    cases hframe
  | startAck hphase hopen hdead =>
    exact .of_phase h.late h.lost id h.written h.acks
  | @accept late hphase =>
    exact .of_phase h.late h.lost trivial h.written
      (forall_mem_cons.mpr ⟨h.permitted late hphase, h.acks⟩)
  | refuse hphase => exact .of_phase h.late h.lost trivial h.written h.acks
  | endRead hphase => exact .of_phase h.late h.lost trivial h.written h.acks
  | pullFrame size revision charged close returnReady hphase hopen hdead =>
    exact h.setWatch (h.queued id) (h.rightLost_eq_false hopen hdead) (by rw [hphase]; simp)
  | pullResync size hphase hopen hdead =>
    refine h.setWatch ?_ (h.rightLost_eq_false hopen hdead) (by rw [hphase]; simp)
    intro item hitem hframe
    rcases mem_append.mp hitem with hold | hnew
    · refine h.late item ?_ hframe
      dsimp only at hold
      split at hold
      · exact mem_of_mem_take hold
      · cases hold
    · rw [mem_singleton] at hnew
      rw [hnew] at hframe
      exact hframe
  | pullTerminal item hphase hopen hdead hreply =>
    refine h.setWatch ?_ ?_ (by rw [hphase]; simp)
    · intro other hother hframe
      split at hother
      · exact h.late other hother hframe
      · rcases mem_append.mp hother with hold | hnew
        · cases hold
        · rw [mem_singleton] at hnew
          rw [hnew, hreply] at hframe
          cases hframe
    · split
      · exact h.rightLost_eq_false hopen hdead
      · exact h.rightLost_eq_false hopen hdead
  | endPull hphase =>
    refine .of_phase h.late h.lost ?_ h.written h.acks
    dsimp only
    split_ifs with hdead
    · exact .inl hdead
    · exact id
  | @checkLost forAck late reply hphase hlost =>
    refine h.answer ?_ (h.checked forAck late hphase) ?_
    · intro hfalse
      rw [hlost] at hfalse
      cases hfalse
    · intro hfalse
      rw [hlost] at hfalse
      cases hfalse
  | @checkSame forAck late reply hphase hlost hsame hreply =>
    exact h.answer (fun _ => hreply) (h.checked forAck late hphase)
      (fun _ hheld => hrem.held hheld hsame.symm)
  | @checkMoved forAck late hphase hlost hmoved =>
    exact .of_phase h.late h.lost (h.checked forAck late hphase) h.written h.acks
  | @recheck forAck late generation reply hphase hreply =>
    have hnext : OutputInv { s with check := s.check.recheck generation s.view } :=
      ⟨h.late, h.lost, h.write, h.checked, h.rechecked, h.permitted, h.written, h.acks⟩
    exact hnext.answer (fun _ => hreply) (h.rechecked forAck late generation hphase)
      (fun _ hheld => hrem.recheck generation hheld)
  | write bytes hphase hdead =>
    obtain ⟨houtput, hwritten⟩ := advanceLoop_mem s.watch.output s.watch.offset bytes
    have htimely : s.watch.Timely := by
      rcases h.write hphase with hd | htimely
      · rw [hdead] at hd
        cases hd
      · exact htimely
    have hnext : (s.watch.advance bytes).1.Timely :=
      fun item hitem => htimely item (houtput item hitem)
    refine ⟨fun item hitem hframe => h.late item (houtput item hitem) hframe, ?_,
      fun _ => .inr hnext, h.checked, h.rechecked, h.permitted, ?_, h.acks⟩
    · intro hlost
      exact ⟨(h.lost hlost).1, .inr hnext⟩
    · intro late hlate
      rcases mem_append.mp hlate with hnew | hold
      · obtain ⟨part, hpart, rfl⟩ := mem_map.mp hnew
        exact htimely part.1 (hwritten part hpart)
      · exact h.written late hold
  | pin writeSize hphase hdead =>
    exact ⟨h.late, h.lost, h.write, h.checked, h.rechecked, h.permitted, h.written, h.acks⟩
  | endRound hphase =>
    have hdone := h.write hphase
    have hmono : ∀ {other : Bool}, s.watch.dead = true → (s.watch.dead || other) = true := by
      intro other hdead
      rw [hdead]
      rfl
    refine .of_phase h.late (fun hlost => ?_) ?_ h.written h.acks
    · exact ⟨(h.lost hlost).1.imp_left hmono, hdone.imp_left hmono⟩
    · dsimp only
      split_ifs <;> trivial
  | die =>
    exact ⟨h.late, fun _ => ⟨.inl rfl, .inl rfl⟩, fun _ => .inl rfl, h.checked, h.rechecked,
      h.permitted, h.written, h.acks⟩

/-! ## Whole runs -/

theorem WatchSystem.Started.registryInv (h : s.Started) : RegistryInv s := by
  obtain ⟨states, k, hrun, heq⟩ := h.registry
  refine ⟨?_, ?_, h.incarnation⟩
  · rw [heq]
    exact hrun.inv k
  · intro next hnext
    rw [h.pending] at hnext
    cases hnext

theorem WatchSystem.Started.removalInv (h : s.Started) : RemovalInv s := by
  refine ⟨?_, ?_, h.generation, ?_, ?_⟩
  · intro hremoved
    rw [h.removed] at hremoved
    simpa using hremoved
  · intro next hnext
    rw [h.pending] at hnext
    cases hnext
  · intro forAck late generation heq
    rw [h.phase] at heq
    cases heq
  · intro _ hsame
    rw [h.removed, h.confirmed hsame]
    rfl

theorem WatchSystem.Started.outputInv (h : s.Started) : OutputInv s := by
  refine .of_phase (fun item hitem => ?_) (fun hlost => ?_) ?_ (fun late hlate => ?_)
    fun ack hack => ?_
  · rw [h.watch] at hitem
    cases hitem
  · rw [h.watch] at hlost
    cases hlost
  · rw [h.phase]
    trivial
  · rw [h.written] at hlate
    cases hlate
  · rw [h.acks] at hack
    cases hack

/-- Whatever updates are made, the registry keeps its rules. -/
theorem WatchRun.registryInv {updates : WatchRight → UserRegistry → UserUpdate → Prop}
    (h : WatchRun updates s) : RegistryInv s := by
  obtain ⟨start, hstart, hrun⟩ := h
  exact Runs.invariant hrun hstart.registryInv (fun _ _ hinv hstep => hinv.step hstep)

/-- Where the right is never granted back, the queue is in time whenever it is written. -/
theorem WatchRun.outputInv (h : WatchRun NoRegrant s) : OutputInv s := by
  obtain ⟨start, hstart, hrun⟩ := h
  have hinv := Runs.invariant (I := fun s => s.check.right = start.check.right ∧
      RegistryInv s ∧ RemovalInv s ∧ OutputInv s) hrun
    ⟨rfl, hstart.registryInv, hstart.removalInv, hstart.outputInv⟩ ?_
  · exact hinv.2.2.2
  · rintro s t ⟨hright, hreg, hrem, hout⟩ hstep
    rw [← hright] at hstep
    exact ⟨hstep.right_eq.trans hright, hreg.step hstep, hrem.step hreg hstep, hout.step hrem hstep⟩

/-- A look-up that did not find the right is the last one. -/
theorem WatchStep.state_eq (h : WatchStep updates s t) (hlost : s.check.state ≠ .held) :
    t.check.state = s.check.state := by
  cases h with
  | recheck reply hphase hreply => exact if_pos hlost
  | _ => rfl

/-- A watch that lost its right never has it again. -/
theorem WatchStep.rightLost (h : WatchStep updates s t) (hlost : s.watch.rightLost = true) :
    t.watch.rightLost = true := by
  have hanswer : ∀ state reply, (s.watch.permitted (some state) reply).2.1.rightLost = true := by
    intro state reply
    rcases s.watch.permitted_cases (some state) reply with ⟨-, heq⟩ | ⟨hheld, -⟩ | ⟨hheld, -⟩
    · rw [heq]
      exact hlost
    · rw [hlost] at hheld
      cases hheld
    · rw [hlost] at hheld
      cases hheld
  cases h with
  | pullTerminal item hphase hopen hdead hreply =>
    dsimp only
    split
    · exact hlost
    · exact hlost
  | checkLost reply hphase hheld => exact hanswer _ reply
  | checkSame reply hphase hheld hsame hreply => exact hanswer _ reply
  | recheck reply hphase hreply => exact hanswer _ reply
  | _ => exact hlost

/-- A watch of `ada` on the table `t`, just handed to the I/O thread. -/
def adaWatch : WatchSystem where
  registry := adaRegistry
  pending := none
  check := ⟨⟨"ada", 1, "t", false⟩, adaRegistry.generation, .held⟩
  watch := .added
  phase := .read
  removed := false
  written := []
  acks := []

theorem adaWatch_started : adaWatch.Started where
  registry := by
    have hrun : UserRun bobStates := .created created_adaRegistry fun k => ⟨_, _, rfl⟩
    exact ⟨bobStates, 0, hrun, rfl⟩
  pending := rfl
  incarnation := by decide +kernel
  generation := le_rfl
  state := rfl
  confirmed := by decide +kernel
  removed := by decide +kernel
  watch := rfl
  phase := rfl
  written := rfl
  acks := rfl

/-- The reply of `Permitted`. -/
def noRightReply : IoOutput Bool := ⟨false, 20, none, false⟩

end ChunkDb
