/-
# Rights changes and the feed I/O loop

The registry changes its users under its own lock: it installs the new view first and moves
the generation after.  The I/O thread takes no part in that lock.  Each round of its loop over
a watch reads acknowledgements, pulls frames, asks `Permitted` and writes; `Permitted` loads the
generation and, when it moved, reads the view.  The model interleaves every one of these steps
with the two steps of an update.

A frame carries whether it was pulled after an update that removes the right had committed,
and the model records which frames reached the socket and when acknowledgements were checked
and accepted.
-/
import ChunkDb.Users.RightCheck
import ChunkDb.Lib.Runs

namespace ChunkDb

/-! ## The model -/

/-- Where the I/O thread stands in its round over the watch.  `late` is whether the right had
been removed when `Permitted` was called. -/
inductive LoopPhase
  /-- In `Read`. -/
  | read
  /-- In `Permitted`, before the load of the generation; for an acknowledgement or for the
  write. -/
  | check (forAck late : Bool)
  /-- The generation had moved; the view is read next. -/
  | recheck (forAck late : Bool) (generation : ℕ)
  /-- `Permitted` let the acknowledgement pass; `Ack` is next. -/
  | ackPermitted (late : Bool)
  /-- In `Pull`. -/
  | pull
  /-- Before or in `Write`. -/
  | write
  /-- The connection was closed or returned. -/
  | closed
  deriving DecidableEq

/-- An accepted acknowledgement: whether the right had been removed when `Permitted` was
called, and when it was accepted. -/
structure AcceptedAck where
  checkedLate : Bool
  acceptedLate : Bool
  deriving DecidableEq, Repr

/-- The registry, the watch of one session and the I/O thread. -/
structure WatchSystem where
  /-- The registry as its last finished update left it. -/
  registry : UserRegistry
  /-- The update whose view is installed and whose generation is not. -/
  pending : Option UserRegistry
  check : ReadRightCheck
  watch : IoWatch Bool
  phase : LoopPhase
  /-- An update that removes the right has committed. -/
  removed : Bool
  /-- Of each frame that reached the socket, whether it was pulled too late. -/
  written : List Bool
  acks : List AcceptedAck

namespace WatchSystem

/-- `UserRegistry::Rights`: the installed view. -/
def view (s : WatchSystem) : RightsView := (s.pending.getD s.registry).rights

/-- `Permitted` answers with the state of the check. -/
def answer (s : WatchSystem) (forAck late : Bool) (reply : IoOutput Bool) : WatchSystem :=
  let result := s.watch.permitted (some s.check.state) reply
  { s with
    watch := result.2.1
    phase := if forAck then (if result.1 then .ackPermitted late else .pull) else .write }

/-- The watch as `Pull` leaves it when it cannot go on with what is queued: an unfinished
front frame is kept. -/
def resync (s : WatchSystem) (frame : IoOutput Bool) : WatchSystem :=
  let kept := if s.watch.started then s.watch.output.take 1 else []
  { s with watch := { s.watch with output := kept }.queue frame }

end WatchSystem

/-- A frame of the server's own, not pulled from the feed. -/
def IoOutput.IsReply (item : IoOutput Bool) : Prop := item.frame = false

/-- One step of the registry or of the I/O thread.  The registry makes the updates that
`updates` admits. -/
inductive WatchStep (updates : UserRegistry → UserUpdate → Prop) : WatchSystem → WatchSystem → Prop
  /-- `InstallLocked`: a call that changes the users publishes its view. -/
  | install {s} (update : UserUpdate) (outcome : UpdateOutcome) (hidle : s.pending = none)
      (hupdate : updates s.registry update)
      (hcommits : (s.registry.call update outcome).2.generation = s.registry.generation + 1) :
      WatchStep updates s { s with pending := some (s.registry.call update outcome).2 }
  /-- The generation moves: the update has committed. -/
  | commit {s} {registry : UserRegistry} (hpending : s.pending = some registry) :
      WatchStep updates s { s with
        registry := registry
        pending := none
        removed := s.removed || !s.check.right.readIn registry.rights }
  /-- `Read` answers by itself, and may close the watch or end it. -/
  | reply {s} (item : IoOutput Bool) (close unwatch returnReady : Bool) (hphase : s.phase = .read)
      (hreply : item.IsReply) (hopen : s.watch.close = false) (hdead : s.watch.dead = false) :
      WatchStep updates s { s with watch := { s.watch.queue item with
        close := close, unwatch := unwatch, returnReady := returnReady } }
  /-- `Read` has an acknowledgement and calls `Permitted`. -/
  | startAck {s} (hphase : s.phase = .read) (hopen : s.watch.close = false)
      (hdead : s.watch.dead = false) :
      WatchStep updates s { s with phase := .check true s.removed }
  /-- `Ack` accepts. -/
  | accept {s} {late : Bool} (hphase : s.phase = .ackPermitted late) :
      WatchStep updates s { s with
        phase := .read
        acks := ⟨late, s.removed⟩ :: s.acks }
  /-- `Ack` refuses, or finds the watch ended. -/
  | refuse {s} {late : Bool} (hphase : s.phase = .ackPermitted late) :
      WatchStep updates s { s with phase := .read }
  /-- `Read` returns. -/
  | endRead {s} (hphase : s.phase = .read) : WatchStep updates s { s with phase := .pull }
  /-- `Pull` queues a frame of the feed, the last one of a watch that ends. -/
  | pullFrame {s} (size : ℕ) (revision : Option ℕ) (charged close returnReady : Bool)
      (hphase : s.phase = .pull) (hopen : s.watch.close = false) (hdead : s.watch.dead = false) :
      WatchStep updates s { s with watch :=
        { s.watch.queue ⟨s.removed, size, revision, charged⟩ with
          close := close, returnReady := returnReady } }
  /-- `Pull` drops what it may and queues a resync frame. -/
  | pullResync {s} (size : ℕ) (hphase : s.phase = .pull) (hopen : s.watch.close = false)
      (hdead : s.watch.dead = false) :
      WatchStep updates s (s.resync ⟨s.removed, size, none, false⟩)
  /-- `Pull` ends a slot watch that timed out or is taken over. -/
  | pullTerminal {s} (item : IoOutput Bool) (hphase : s.phase = .pull)
      (hopen : s.watch.close = false) (hdead : s.watch.dead = false) (hreply : item.IsReply) :
      WatchStep updates s { s with watch :=
        if s.watch.started then { s.watch with dead := true }
        else { s.watch.releaseOutput.1.queue item with close := true, closeImmediate := true } }
  /-- After `Pull`, `Permitted` is called unless the watch is dead. -/
  | endPull {s} (hphase : s.phase = .pull) :
      WatchStep updates s { s with
        phase := if s.watch.dead then .write else .check false s.removed }
  /-- `Permitted` has answered before that the right is lost. -/
  | checkLost {s} {forAck late : Bool} (reply : IoOutput Bool)
      (hphase : s.phase = .check forAck late) (hlost : s.watch.rightLost = true) :
      WatchStep updates s (s.answer forAck late reply)
  /-- The generation is the one of the last look-up. -/
  | checkSame {s} {forAck late : Bool} (reply : IoOutput Bool)
      (hphase : s.phase = .check forAck late) (hlost : s.watch.rightLost = false)
      (hsame : s.registry.generation = s.check.generation) (hreply : reply.IsReply) :
      WatchStep updates s (s.answer forAck late reply)
  /-- The generation has moved. -/
  | checkMoved {s} {forAck late : Bool} (hphase : s.phase = .check forAck late)
      (hlost : s.watch.rightLost = false)
      (hmoved : s.registry.generation ≠ s.check.generation) :
      WatchStep updates s { s with phase := .recheck forAck late s.registry.generation }
  /-- `Recheck` reads the view. -/
  | recheck {s} {forAck late : Bool} {generation : ℕ} (reply : IoOutput Bool)
      (hphase : s.phase = .recheck forAck late generation) (hreply : reply.IsReply) :
      WatchStep updates s ({ s with check := s.check.recheck generation s.view }.answer
        forAck late reply)
  /-- `Write` hands some bytes to the socket. -/
  | write {s} (bytes : ℕ) (hphase : s.phase = .write) (hdead : s.watch.dead = false) :
      WatchStep updates s { s with
        watch := (s.watch.advance bytes).1
        written := ((s.watch.advance bytes).2.written.map (·.1.frame)) ++ s.written }
  /-- A TLS write is pinned, or an earlier one is done. -/
  | pin {s} (writeSize : ℕ) (hphase : s.phase = .write) (hdead : s.watch.dead = false) :
      WatchStep updates s { s with watch := { s.watch with writeSize := writeSize } }
  /-- The round ends, and with it a watch that is dead or done. -/
  | endRound {s} (hphase : s.phase = .write) :
      WatchStep updates s { s with
        watch := { s.watch with dead := s.watch.dead || s.watch.closeImmediate }
        phase :=
          if s.watch.dead || s.watch.closeImmediate ||
              ((s.watch.close || (s.watch.unwatch && s.watch.returnReady)) &&
                s.watch.output.isEmpty) then .closed
          else .read }
  /-- The socket fails, or made no progress for too long. -/
  | die {s} : WatchStep updates s { s with watch := { s.watch with dead := true } }

/-- A watch just handed to the I/O thread: the right was confirmed at the generation of its
check, and the check's user is one of the registry, now or before. -/
structure WatchSystem.Started (s : WatchSystem) : Prop where
  registry : ∃ states k, UserRun states ∧ s.registry = states k
  pending : s.pending = none
  incarnation : s.check.right.incarnation < s.registry.nextIncarnation
  generation : s.check.generation ≤ s.registry.generation
  state : s.check.state = .held
  confirmed : s.check.generation = s.registry.generation →
    s.check.right.readIn s.registry.rights = true
  removed : s.removed = !s.check.right.readIn s.registry.rights
  watch : s.watch = IoWatch.added
  phase : s.phase = .read
  written : s.written = []
  acks : s.acks = []

/-- The system is reached from a watch just handed over. -/
def WatchRun (updates : WatchRight → UserRegistry → UserUpdate → Prop) (s : WatchSystem) : Prop :=
  ∃ start : WatchSystem, start.Started ∧
    Relation.ReflTransGen (WatchStep (updates start.check.right)) start s

end ChunkDb
