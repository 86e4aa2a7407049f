/-
# Wake-ups of the feed threads

The I/O loop of the feed sleeps in `poll`, the catch-up worker on a condition
(`server_feed.cpp`).  A publisher makes its event visible and calls `Wake`.  Both wake-ups are
coalesced: a flag says that one is on its way, and who finds it set does nothing.

* The loop empties the wake channel, then clears its flag, then scans.
* The worker clears its flag and its condition and copies the slots in one section of its lock,
  and then works on them.  A publisher that counts no slots leaves it asleep; the registration
  of a slot sets the condition itself.

Each publisher publishes once, so that one thread that publishes again and again is a row of
them; the loop's own calls of `Wake` are publishers too.  A section of `catchup_mutex_` holds
one access to an atomic and is one step.
-/
import ChunkDb.Lib.Runs
import Mathlib.Tactic

open Function

namespace ChunkDb

/-! ## The model -/

/-- Where a publisher stands. -/
inductive PublisherPhase
  | before
  /-- The event is visible, `Wake` is called. -/
  | published
  /-- In `WakeCatchUp`: there are slots. -/
  | counted
  /-- In `WakeCatchUp`: the flag is set, the condition not yet. -/
  | catchUpFlagged
  /-- In `WakePoll`. -/
  | caughtUp
  /-- In `WakePoll`: the flag is set, the byte not yet sent. -/
  | flagged
  /-- `Wake` has returned. -/
  | done
  deriving DecidableEq

/-- Where `Run` stands. -/
inductive IoPhase
  | drain
  /-- In `DrainWake`: the channel was found empty. -/
  | clear
  | scan
  /-- After the start of the scan. -/
  | scanned
  | poll
  | stopped
  deriving DecidableEq

/-- Where `CatchUp` stands. -/
inductive WorkerPhase
  | waiting
  | working
  | stopped
  deriving DecidableEq

/-- The two threads, the publishers and the slots.  `unseen` and `unswept` are the publications
that no scan of the loop, or of the worker, has started after. -/
structure FeedWake (P S : Type) where
  signaled : Bool := false
  bytes : ℕ := 0
  /-- The read end was shut down. -/
  shut : Bool := false
  loop : IoPhase := .drain
  catchupSignaled : Bool := false
  catchupWake : Bool := false
  slots : List S := []
  slotCount : ℕ := 0
  states : List S := []
  worker : WorkerPhase := .waiting
  publisher : P → PublisherPhase := fun _ => .before
  unseen : P → Bool := fun _ => false
  unswept : P → Bool := fun _ => false

variable {P S : Type} [DecidableEq P]

/-- A publisher goes on. -/
def FeedWake.move (s : FeedWake P S) (p : P) (phase : PublisherPhase) : FeedWake P S :=
  { s with publisher := update s.publisher p phase }

/-- One step of a publisher, of `RegisterSlot`, of the loop or of the worker. -/
inductive FeedWake.Step : FeedWake P S → FeedWake P S → Prop
  | publish {s} {p : P} (h : s.publisher p = .before) :
      Step s { s.move p .published with
        unseen := update s.unseen p true
        unswept := update s.unswept p true }
  | noSlots {s} {p : P} (h : s.publisher p = .published) (hcount : s.slotCount = 0) :
      Step s (s.move p .caughtUp)
  | countSlots {s} {p : P} (h : s.publisher p = .published) (hcount : s.slotCount ≠ 0) :
      Step s (s.move p .counted)
  | skipCatchUp {s} {p : P} (h : s.publisher p = .counted) (hflag : s.catchupSignaled = true) :
      Step s (s.move p .caughtUp)
  | flagCatchUp {s} {p : P} (h : s.publisher p = .counted) (hflag : s.catchupSignaled = false) :
      Step s { s.move p .catchUpFlagged with catchupSignaled := true }
  | wakeCatchUp {s} {p : P} (h : s.publisher p = .catchUpFlagged) :
      Step s { s.move p .caughtUp with catchupWake := true }
  | skipPoll {s} {p : P} (h : s.publisher p = .caughtUp) (hflag : s.signaled = true) :
      Step s (s.move p .done)
  | flagPoll {s} {p : P} (h : s.publisher p = .caughtUp) (hflag : s.signaled = false) :
      Step s { s.move p .flagged with signaled := true }
  | send {s} {p : P} (h : s.publisher p = .flagged) :
      Step s { s.move p .done with bytes := s.bytes + 1 }
  /-- The channel is full. -/
  | sendWouldBlock {s} {p : P} (h : s.publisher p = .flagged) (hfull : 0 < s.bytes) :
      Step s (s.move p .done)
  | sendFails {s} {p : P} (h : s.publisher p = .flagged) :
      Step s { s.move p .done with shut := true }
  | registerSlot {s} (slot : S) :
      Step s { s with
        slots := s.slots ++ [slot], catchupWake := true, slotCount := s.slots.length + 1 }
  | recv {s} {n : ℕ} (h : s.loop = .drain) (hpos : 0 < n) (hle : n ≤ min 256 s.bytes) :
      Step s { s with bytes := s.bytes - n }
  | recvWouldBlock {s} (h : s.loop = .drain) (hempty : s.bytes = 0) (hopen : s.shut = false) :
      Step s { s with loop := .clear }
  | clear {s} (h : s.loop = .clear) : Step s { s with signaled := false, loop := .scan }
  | scan {s} (h : s.loop = .scan) : Step s { s with unseen := fun _ => false, loop := .scanned }
  | poll {s} (h : s.loop = .scanned) : Step s { s with loop := .poll }
  /-- `poll` returns: the channel, a socket or the time. -/
  | pollReturns {s} (h : s.loop = .poll) : Step s { s with loop := .drain }
  /-- The server does not run any more, or the loop failed. -/
  | stop {s} (h : s.loop ≠ .poll) : Step s { s with loop := .stopped }
  /-- The condition or the time. -/
  | catchUp {s} (h : s.worker = .waiting) :
      Step s { s with
        catchupWake := false, states := s.slots, catchupSignaled := false
        unswept := fun _ => false, worker := .working }
  | eraseFinished {s} (finished : S → Bool) (h : s.worker = .working) :
      Step s { s with
        slots := s.slots.filter (!finished ·)
        slotCount := (s.slots.filter (!finished ·)).length
        worker := .waiting }
  /-- The server stops, or the worker failed. -/
  | stopCatchUp {s} (h : s.worker = .working) :
      Step s { s with slots := [], slotCount := 0, worker := .stopped }

namespace FeedWake

/-! ## The invariant -/

/-- Something brings the loop out of `poll`. -/
def PollWoken (s : FeedWake P S) : Prop :=
  0 < s.bytes ∨ s.shut = true ∨ ∃ p, s.publisher p = .flagged

/-- Something brings the worker out of its wait. -/
def CatchUpWoken (s : FeedWake P S) : Prop :=
  s.catchupWake = true ∨ ∃ p, s.publisher p = .catchUpFlagged

/-- The loop is to clear its flag before it scans. -/
def Clears (s : FeedWake P S) : Prop := s.loop = .drain ∨ s.loop = .clear ∨ s.loop = .stopped

/-- A set flag is followed by a wake-up, and so is a publication whose `Wake` is over. -/
structure Inv (s : FeedWake P S) : Prop where
  count : s.slotCount = s.slots.length
  signaled : s.signaled = true → s.Clears ∨ s.PollWoken
  seen : ∀ p, s.publisher p = .done → s.unseen p = true → s.Clears ∨ s.loop = .scan ∨ s.PollWoken
  catchupSignaled : s.catchupSignaled = true → s.CatchUpWoken
  swept : ∀ p, s.publisher p = .caughtUp ∨ s.publisher p = .flagged ∨ s.publisher p = .done →
    s.unswept p = true → s.slots ≠ [] → s.CatchUpWoken
  registered : ∀ slot ∈ s.slots, slot ∈ s.states ∨ s.catchupWake = true

theorem Inv.step {s t : FeedWake P S} (h : s.Inv) (hstep : Step s t) : t.Inv := by
  obtain ⟨hcount, hsignaled, hseen, hcatchup, hswept, hregistered⟩ := h
  cases hstep with
  | eraseFinished finished hworker =>
    refine ⟨rfl, hsignaled, hseen, hcatchup, fun p hp hunswept hleft => ?_, fun slot hslot => ?_⟩
    · refine hswept p hp hunswept fun hnil => hleft ?_
      rw [hnil, List.filter_nil]
    · exact hregistered slot (List.mem_of_mem_filter hslot)
  | _ =>
    simp only [PollWoken, CatchUpWoken, Clears] at *
    -- who skips a wake-up found a flag that was followed by one, or no slot; who clears a flag
    -- scans after it
    constructor <;> simp only [move, PollWoken, CatchUpWoken, Clears, update_apply] <;>
      first | assumption | grind -ring -linarith

/-- In every interleaving, a publication whose `Wake` has returned and that no scan of the loop
was started after finds the loop outside `poll`, or a byte in the channel, or a publisher
between its flag and its byte; where a send failed, the read end is shut down instead, which ends
`poll` too.  Likewise for the worker while there is a slot, with its flag and its condition; and
a slot that the worker has not taken up leaves the condition set. -/
theorem no_lost_wakeup {s : FeedWake P S} (hrun : Relation.ReflTransGen Step {} s) :
    (∀ p, s.publisher p = .done → s.unseen p = true →
        s.loop ≠ .poll ∨ 0 < s.bytes ∨ s.shut = true ∨ ∃ q, s.publisher q = .flagged)
      ∧ (∀ p, s.publisher p = .done → s.unswept p = true → s.slots ≠ [] →
        s.worker ≠ .waiting ∨ s.catchupWake = true ∨ ∃ q, s.publisher q = .catchUpFlagged)
      ∧ ∀ slot ∈ s.slots, slot ∈ s.states ∨ s.catchupWake = true := by
  have hstart : ({} : FeedWake P S).Inv := by constructor <;> simp
  have hinv := Runs.invariant hrun hstart fun _ _ h hstep => h.step hstep
  refine ⟨fun p hdone hunseen => ?_, fun p hdone hunswept hslots => ?_, hinv.registered⟩
  · by_cases hpoll : s.loop = .poll
    · simpa [Clears, PollWoken, hpoll] using hinv.seen p hdone hunseen
    · exact .inl hpoll
  · exact .inr (hinv.swept p (.inr (.inr hdone)) hunswept hslots)

/-- The loop is in `poll` when an event is published, and a byte is sent. -/
theorem no_lost_wakeup_poll : ∃ s : FeedWake Unit Unit, s.loop = .poll
    ∧ (0 < s.bytes ∨ s.shut = true ∨ ∃ q, s.publisher q = .flagged) := by
  have hrun : Relation.ReflTransGen Step ({} : FeedWake Unit Unit) _ :=
    .head (.recvWouldBlock rfl rfl rfl) (.head (.clear rfl) (.head (.scan rfl) (.head (.poll rfl)
      (.head (.publish (p := ()) rfl) (.head (.noSlots (p := ()) rfl rfl)
        (.head (.flagPoll (p := ()) rfl rfl) (.head (.send (p := ()) rfl) .refl)))))))
  exact ⟨_, rfl, ((no_lost_wakeup hrun).1 () rfl rfl).resolve_left fun h => h rfl⟩

end FeedWake

end ChunkDb
