/-
# The output queue of a watched connection

`FeedIo` keeps, for each watched connection, the frames it pulled and how far the socket got
with the front one.  Output of a slot watch is charged to its slot; the queue reports every
amount the slot is to take back (`SlotWatch::Consumed`), in the order the calls are made.
Frames carry their content as a parameter, so that a claim about what reaches the socket can
say which frames it means.
-/
import ChunkDb.Basic

namespace ChunkDb

/-- `ReadRightCheck::State`. -/
inductive RightState
  | held
  | noUser
  | noRight
  deriving DecidableEq, Repr

/-- `FeedIo::Watch::Output`. -/
structure IoOutput (α : Type*) where
  frame : α
  /-- `bytes->size()`. -/
  size : ℕ
  revision : Option ℕ
  charged : Bool
  deriving DecidableEq, Repr

/-- `FeedIo::Watch`. -/
structure IoWatch (α : Type*) where
  output : List (IoOutput α)
  offset : ℕ
  /-- The length an unfinished TLS write pins; 0 without one. -/
  writeSize : ℕ
  unwatch : Bool
  returnReady : Bool
  close : Bool
  dead : Bool
  closeImmediate : Bool
  rightLost : Bool
  deriving DecidableEq, Repr

/-- A watch handed to the I/O thread. -/
def IoWatch.added {α : Type*} : IoWatch α :=
  ⟨[], 0, 0, false, false, false, false, false, false⟩

/-- What a write of some bytes did to the queue: the queue left, the amounts consumed from
the slot, the revisions sent, and which bytes of which frames reached the socket. -/
structure Advanced (α : Type*) where
  output : List (IoOutput α)
  offset : ℕ
  consumed : List ℕ
  sent : List ℕ
  written : List (IoOutput α × ℕ)

variable {α : Type*}

/-- The loop of `FeedIo::Advance`. -/
def advanceLoop : List (IoOutput α) → ℕ → ℕ → Advanced α
  | [], offset, _ => ⟨[], offset, [], [], []⟩
  | front :: rest, offset, bytes =>
    if bytes = 0 then ⟨front :: rest, offset, [], [], []⟩
    else
      let take := min bytes (front.size - offset)
      let next : Advanced α :=
        if offset + take = front.size then advanceLoop rest 0 (bytes - take)
        else ⟨front :: rest, offset + take, [], [], []⟩
      { next with
        consumed := (if front.charged then [take] else []) ++ next.consumed
        sent := (if offset + take = front.size then front.revision.toList else []) ++ next.sent
        written := (front, take) :: next.written }

/-- The amounts `FeedIo::ReleaseOutput` gives back: what the socket did not take of each
charged frame. -/
def releaseAmounts : List (IoOutput α) → ℕ → List ℕ
  | [], _ => []
  | front :: rest, offset =>
    (if front.charged ∧ offset < front.size then [front.size - offset] else []) ++
      releaseAmounts rest 0

namespace IoWatch

/-- `FeedIo::Queue`. -/
def queue (watch : IoWatch α) (item : IoOutput α) : IoWatch α :=
  { watch with output := watch.output ++ [item] }

/-- `FeedIo::Advance`, with the queue it leaves. -/
def advance (watch : IoWatch α) (bytes : ℕ) : IoWatch α × Advanced α :=
  let next := advanceLoop watch.output watch.offset bytes
  ({ watch with output := next.output, offset := next.offset }, next)

/-- `FeedIo::ReleaseOutput`: the queue is dropped and its slot charges are released. -/
def releaseOutput (watch : IoWatch α) : IoWatch α × List ℕ :=
  ({ watch with output := [], offset := 0 }, releaseAmounts watch.output watch.offset)

/-- A frame was started, or a TLS retry is pinned. -/
def started (watch : IoWatch α) : Bool := watch.offset ≠ 0 || watch.writeSize ≠ 0

/-- `FeedIo::Permitted`, given what the session's right check says (`none` without a right
to check) and the reply that tells of the loss. -/
def permitted (watch : IoWatch α) (right : Option RightState) (reply : IoOutput α) :
    Bool × IoWatch α × List ℕ :=
  if watch.rightLost then (false, watch, [])
  else match right with
    | none => (true, watch, [])
    | some .held => (true, watch, [])
    | some _ =>
      let lost := { watch with rightLost := true }
      if watch.started then (false, { lost with dead := true }, [])
      else
        (false,
          { { lost with output := [] }.queue reply with close := true, closeImmediate := true },
          (watch.output.filter (·.charged)).map (·.size))

/-- What `Permitted` does: nothing once the right is lost, nothing while it is held, and else
it ends the watch, at once when a frame was started and with the reply alone when not. -/
theorem permitted_cases (watch : IoWatch α) (right : Option RightState) (reply : IoOutput α) :
    (watch.rightLost = true ∧ watch.permitted right reply = (false, watch, [])) ∨
    (watch.rightLost = false ∧ (right = none ∨ right = some .held) ∧
      watch.permitted right reply = (true, watch, [])) ∨
    (watch.rightLost = false ∧ (watch.permitted right reply).1 = false ∧
      ((watch.permitted right reply).2.1.dead = true ∨
        (watch.permitted right reply).2.1.close = true) ∧
      ((watch.permitted right reply).2.1.dead = true ∧
          (watch.permitted right reply).2.1.output = watch.output ∨
        (watch.permitted right reply).2.1.output = [reply])) := by
  unfold permitted
  by_cases hlost : watch.rightLost = true
  · exact .inl ⟨hlost, if_pos hlost⟩
  · rw [if_neg hlost]
    have hfalse : watch.rightLost = false := by simpa using hlost
    rcases right with _ | state
    · exact .inr (.inl ⟨hfalse, .inl rfl, rfl⟩)
    · cases state with
      | held => exact .inr (.inl ⟨hfalse, .inr rfl, rfl⟩)
      | noUser =>
        refine .inr (.inr ⟨hfalse, ?_⟩)
        dsimp only
        split
        · exact ⟨rfl, .inl rfl, .inl ⟨rfl, rfl⟩⟩
        · exact ⟨rfl, .inr rfl, .inr rfl⟩
      | noRight =>
        refine .inr (.inr ⟨hfalse, ?_⟩)
        dsimp only
        split
        · exact ⟨rfl, .inl rfl, .inl ⟨rfl, rfl⟩⟩
        · exact ⟨rfl, .inr rfl, .inr rfl⟩

end IoWatch

end ChunkDb
