/-
# The slot state machine

What any sequence of slot operations does.  A trace carries, beside the state, which
slot of a name is meant: `generation` counts the slots that appeared in the file under a
name, and `staged` lists the acknowledgements accepted so far with the generation each was for.

Every operation is a path of a few kinds of steps (`SlotTrace.Step`): the invariant and
what holds between an earlier and a later state are proved for those.
-/
import ChunkDb.Feed.Slots
import ChunkDb.Lib.Runs

open Relation List Function

namespace ChunkDb

open SlotsState FeedSlotRecords

/-! ## Operations and traces -/

/-- The operations on slots, each with the outcomes of its file writes. -/
inductive SlotOp
  | create (name : String) (completed : ℕ) (ifNotExists : Bool) (filters : FeedSlotFilters)
      (owner : Option String) (flush : Option SlotError) (syncOutcome outcome : PersistOutcome)
  | drop (name : String) (ifExists : Bool) (outcome : PersistOutcome)
  | bindOwner (name owner : String) (outcome : PersistOutcome)
  | advance (name : String) (position : FeedPosition) (outcome : PersistOutcome)
  | stageAck (name : String) (position : FeedPosition)
  | flushAcks (due : Bool) (outcome : PersistOutcome)
  | sync (completed : ℕ) (flush : Option SlotError) (outcome : PersistOutcome)
  | retain (retainedBytes : ℕ → ℕ) (outcome : PersistOutcome)

def SlotOp.isCreate : SlotOp → Bool
  | .create .. => true
  | _ => false

/-- What an operation answers, its value left out. -/
def SlotResult.done {A : Type} (r : SlotResult A) : SlotsState × Option SlotError :=
  (r.1, match r.2 with
    | .ok _ => none
    | .error e => some e)

/-- The state an operation leaves and what it threw. -/
def SlotOp.run (s : SlotsState) : SlotOp → SlotsState × Option SlotError
  | .create name completed ifNotExists filters owner flush syncOutcome outcome =>
    (s.create name completed ifNotExists filters owner flush syncOutcome outcome).done
  | .drop name ifExists outcome => (s.drop name ifExists outcome).done
  | .bindOwner name owner outcome => (s.bindOwner name owner outcome).done
  | .advance name position outcome => (s.advance name position outcome).done
  | .stageAck name position => (s.stageAck name position).done
  | .flushAcks due outcome => (s.flushAcks due outcome).done
  | .sync completed flush outcome => (s.sync completed flush outcome).done
  | .retain retainedBytes outcome => (s.markLost retainedBytes outcome).done

/-- A state with the history the statements need. -/
structure SlotTrace where
  state : SlotsState
  generation : String → ℕ
  staged : List (String × ℕ × ℕ)

/-- The slots in memory. -/
abbrev SlotTrace.slots (t : SlotTrace) : List FeedSlotRecord := t.state.records.slots

abbrev SlotTrace.names (t : SlotTrace) : List String := t.state.records.names

abbrev SlotTrace.watermark (t : SlotTrace) : ℕ := t.state.records.durableWatermark

/-- Whether `StageAck` stages this position. -/
def SlotsState.stages (s : SlotsState) (name : String) (position : FeedPosition) : Bool :=
  !s.poisoned && match s.records.find name with
    | none => false
    | some slot => !slot.lost && decide (position.epoch = s.records.epoch)
        && decide (slot.written < position.revision)

/-- The generations after the file is replaced: a name that was not there has a new slot. -/
def SlotTrace.generationWith (t : SlotTrace) (file : FeedSlotRecords) (name : String) : ℕ :=
  if name ∉ t.state.file.names ∧ name ∈ file.names then t.generation name + 1
  else t.generation name

/-- The trace after a move to another state. -/
def SlotTrace.move (t : SlotTrace) (s : SlotsState) : SlotTrace where
  state := s
  generation := t.generationWith s.file
  staged := t.staged

/-- The acknowledgement an operation stages. -/
def SlotOp.stagedBy (t : SlotTrace) : SlotOp → List (String × ℕ × ℕ)
  | .stageAck name position =>
    if t.state.stages name position then [(name, t.generation name, position.revision)] else []
  | _ => []

/-- One operation. -/
def SlotTrace.apply (t : SlotTrace) (op : SlotOp) : SlotTrace :=
  { t.move (op.run t.state).1 with staged := op.stagedBy t ++ t.staged }

/-- A sequence of operations. -/
def SlotTrace.run (t : SlotTrace) (ops : List SlotOp) : SlotTrace := ops.foldl SlotTrace.apply t

/-- The records as a store opens them. -/
def SlotsState.opened (records : FeedSlotRecords) (maxBytes : ℕ) : SlotsState where
  records := records
  file := records
  pending := fun _ => none
  active := records.slots.any (!·.lost)
  poisoned := false
  maxBytes := maxBytes

/-- The trace of a store that was just opened. -/
def SlotTrace.opened (records : FeedSlotRecords) (maxBytes : ℕ) : SlotTrace where
  state := SlotsState.opened records maxBytes
  generation := fun _ => 0
  staged := []

/-! ## What the validation gives -/

/-- What the proofs use of `ValidateRecords`. -/
structure FeedSlotRecords.Valid (records : FeedSlotRecords) : Prop where
  nodup : records.names.Nodup
  written_le : ∀ slot ∈ records.slots, slot.written ≤ records.durableWatermark

theorem validateSlots_spec {durableWatermark : ℕ} {slots : List FeedSlotRecord} :
    ∀ {names : List String} {encodedSize : ℕ},
      validateSlots durableWatermark names encodedSize slots = .ok () →
      (∀ slot ∈ slots, slot.name ∉ names) ∧ (slots.map FeedSlotRecord.name).Nodup ∧
        ∀ slot ∈ slots, slot.written ≤ durableWatermark := by
  induction slots with
  | nil =>
    intro names encodedSize _
    exact ⟨by simp, by simp, by simp⟩
  | cons slot slots ih =>
    intro names encodedSize h
    simp only [validateSlots, check_bind_eq_ok, require_eq_ok] at h
    obtain ⟨-, hfresh, hwritten, -, -, hrest⟩ := h
    obtain ⟨hnames, hnodup, hle⟩ := ih hrest
    refine ⟨?_, ?_, ?_⟩
    · rintro other (_ | ⟨_, hother⟩)
      · exact hfresh
      · exact fun hmem => hnames other hother (mem_cons_of_mem _ hmem)
    · rw [map_cons, nodup_cons]
      refine ⟨?_, hnodup⟩
      rw [mem_map]
      rintro ⟨other, hother, heq⟩
      exact hnames other hother (heq ▸ mem_cons_self)
    · rintro other (_ | ⟨_, hother⟩)
      · exact hwritten
      · exact hle other hother

variable {records next : FeedSlotRecords} {a b slot : FeedSlotRecord} {name : String}
  {l m : List FeedSlotRecord} {g : String → ℕ} {t u : SlotTrace} {s : SlotsState}

theorem valid_of_validateRecords (h : validateRecords records = .ok ()) : records.Valid := by
  simp only [validateRecords, require_bind] at h
  obtain ⟨-, hnodup, hle⟩ := validateSlots_spec h.2.2
  exact ⟨hnodup, hle⟩

/-- With distinct names the slot of a name is the one `find` gives. -/
theorem FeedSlotRecords.Valid.eq_of_name (h : records.Valid) (ha : a ∈ records.slots)
    (hb : b ∈ records.slots) (hname : a.name = b.name) : a = b :=
  inj_on_of_nodup_map h.nodup ha hb hname

theorem FeedSlotRecords.find_some (h : records.find name = some slot) :
    slot ∈ records.slots ∧ slot.name = name :=
  ⟨mem_of_find?_eq_some h, by simpa using find?_some h⟩

theorem FeedSlotRecords.find_none : records.find name = none ↔ name ∉ records.names := by
  simp [find, names]

theorem FeedSlotRecords.mem_names (h : slot ∈ records.slots) : slot.name ∈ records.names :=
  mem_map_of_mem h

/-! ## Steps -/

/-- What an edit may do to a slot that stays: its position does not fall and a lost mark
is not cleared. -/
structure FeedSlotRecord.Le (a b : FeedSlotRecord) : Prop where
  name_eq : b.name = a.name
  written_le : a.written ≤ b.written
  lost : a.lost → b.lost

theorem FeedSlotRecord.Le.refl (a : FeedSlotRecord) : a.Le a := ⟨rfl, le_rfl, id⟩

theorem FeedSlotRecord.Le.trans {c : FeedSlotRecord} (hab : a.Le b) (hbc : b.Le c) : a.Le c :=
  ⟨hbc.name_eq.trans hab.name_eq, hab.written_le.trans hbc.written_le,
    fun h => hbc.lost (hab.lost h)⟩

/-- The state with records that were persisted. -/
def SlotsState.install (s : SlotsState) (next : FeedSlotRecords) : SlotsState :=
  { s with records := next, file := next, active := next.slots.any (!·.lost) }

/-- The kinds of steps the operations are made of. -/
inductive SlotTrace.Step : SlotTrace → SlotTrace → Prop
  /-- the store is frozen -/
  | poison (t : SlotTrace) : Step t { t with state := { t.state with poisoned := true } }
  /-- the file was replaced, and then the write failed -/
  | unknown (t : SlotTrace) (next : FeedSlotRecords) (hok : t.state.poisoned = false)
      (hvalid : next.Valid)
      (hslots : ∀ a ∈ t.slots, ∀ b ∈ next.slots, b.name = a.name → a.Le b) :
      Step t { t with
        state := { t.state with file := next, active := true, poisoned := true }
        generation := t.generationWith next }
  /-- without slots the watermark is kept in memory only -/
  | raise (t : SlotTrace) (w : ℕ) (hempty : t.slots = []) (hle : t.watermark ≤ w) :
      Step t { t with state :=
        { t.state with records := { t.state.records with durableWatermark := w } } }
  /-- every slot stays, edited -/
  | update (t : SlotTrace) (next : FeedSlotRecords) (hok : t.state.poisoned = false)
      (hvalid : next.Valid)
      (hslots : List.Forall₂ FeedSlotRecord.Le t.slots next.slots)
      (hle : t.watermark ≤ next.durableWatermark) : Step t { t with state := t.state.install next }
  /-- a new slot -/
  | add (t : SlotTrace) (next : FeedSlotRecords) (slot : FeedSlotRecord)
      (hok : t.state.poisoned = false) (hvalid : next.Valid)
      (hslots : next.slots = t.slots ++ [slot]) (hle : t.watermark ≤ next.durableWatermark) :
      Step t { t with
        state := t.state.install next
        generation := t.generationWith next }
  /-- a slot and the acknowledgement staged for it are dropped -/
  | remove (t : SlotTrace) (next : FeedSlotRecords) (name : String)
      (hok : t.state.poisoned = false)
      (hslots : next.slots = t.slots.eraseP (·.name == name))
      (hle : t.watermark ≤ next.durableWatermark) (hvalid : next.Valid) :
      Step t { t with
        state := { t.state.install next with
          pending := update t.state.pending name none } }
  /-- an acknowledgement is staged -/
  | stage (t : SlotTrace) (slot : FeedSlotRecord) (revision : ℕ) (hmem : slot ∈ t.slots) :
      Step t { t with
        state := { t.state with
          pending := update t.state.pending slot.name
            (some (max ((t.state.pending slot.name).getD 0) revision)) }
        staged := (slot.name, t.generation slot.name, revision) :: t.staged }
  /-- acknowledgements that are applied, or whose slot is lost, are dropped -/
  | discard (t : SlotTrace) (pending : String → Option ℕ)
      (hsub : ∀ name revision, pending name = some revision → t.state.pending name = some revision)
      (hkeep : ∀ slot ∈ t.slots, slot.lost = false → ∀ revision,
        t.state.pending slot.name = some revision → slot.written < revision →
        pending slot.name = some revision) :
      Step t { t with state := { t.state with pending := pending } }

/-! ## Earlier and later states -/

/-- What holds between a list of slots and a later one, a slot of a name being the same
when its generation is. -/
structure SlotsLater (l m : List FeedSlotRecord) (g g' : String → ℕ) : Prop where
  fresh : ∀ b ∈ m, b.name ∉ l.map FeedSlotRecord.name → g b.name < g' b.name
  slot_le : ∀ a ∈ l, ∀ b ∈ m, b.name = a.name → g' a.name = g a.name → a.Le b

theorem SlotsLater.trans {n : List FeedSlotRecord} {g' g'' : String → ℕ} (hlm : SlotsLater l m g g')
    (hmn : SlotsLater m n g' g'') (hg : ∀ name, g name ≤ g' name) (hg' : ∀ name, g' name ≤ g'' name) :
    SlotsLater l n g g'' where
  fresh c hc hl := by
    by_cases hm : c.name ∈ m.map FeedSlotRecord.name
    · obtain ⟨b, hb, hbc⟩ := mem_map.1 hm
      have hlt := hlm.fresh b hb (hbc ▸ hl)
      rw [hbc] at hlt
      exact hlt.trans_le (hg' c.name)
    · exact (hg c.name).trans_lt (hmn.fresh c hc hm)
  slot_le a ha c hc hname hgen := by
    have hle := hg a.name
    have hle' := hg' a.name
    -- the slot cannot have been away in between: it would have come back with another generation
    have hm : c.name ∈ m.map FeedSlotRecord.name := by
      by_contra hnot
      have hlt := hmn.fresh c hc hnot
      rw [hname] at hlt
      omega
    obtain ⟨b, hb, hbc⟩ := mem_map.1 hm
    exact (hlm.slot_le a ha b hb (hbc.trans hname) (by omega)).trans
      (hmn.slot_le b hb c hc hbc.symm (by rw [hbc, hname]; omega))

/-- Slots that come from earlier ones, each from one it may be edited from. -/
theorem SlotsLater.of_le {g' : String → ℕ} (hsub : ∀ b ∈ m, b.name ∈ l.map FeedSlotRecord.name)
    (hle : ∀ a ∈ l, ∀ b ∈ m, b.name = a.name → a.Le b) : SlotsLater l m g g' where
  fresh b hb hl := absurd (hsub b hb) hl
  slot_le a ha b hb hname _ := hle a ha b hb hname

/-- Slots of the same records are the same when their names are. -/
theorem FeedSlotRecords.Valid.le_of_mem (h : records.Valid) (ha : a ∈ records.slots)
    (hb : b ∈ records.slots) (hname : b.name = a.name) : a.Le b := by
  rw [h.eq_of_name hb ha hname]
  exact FeedSlotRecord.Le.refl a

/-- What holds between a state and a later one, in memory and in the file. -/
structure SlotTrace.Later (t u : SlotTrace) : Prop where
  watermark_le : t.watermark ≤ u.watermark
  generation_le : ∀ name, t.generation name ≤ u.generation name
  memory : SlotsLater t.slots u.slots t.generation u.generation
  file : SlotsLater t.state.file.slots u.state.file.slots t.generation u.generation

theorem SlotTrace.Later.trans {v : SlotTrace} (htu : t.Later u) (huv : u.Later v) : t.Later v where
  watermark_le := htu.watermark_le.trans huv.watermark_le
  generation_le name := (htu.generation_le name).trans (huv.generation_le name)
  memory := htu.memory.trans huv.memory htu.generation_le huv.generation_le
  file := htu.file.trans huv.file htu.generation_le huv.generation_le

theorem names_eq_of_forall₂ (h : List.Forall₂ FeedSlotRecord.Le l m) :
    m.map FeedSlotRecord.name = l.map FeedSlotRecord.name := by
  induction h with
  | nil => rfl
  | cons hab _ ih => rw [map_cons, map_cons, hab.name_eq, ih]

/-- The slot an edited one comes from. -/
theorem exists_of_forall₂ (h : List.Forall₂ FeedSlotRecord.Le l m) (hb : b ∈ m) :
    ∃ a ∈ l, a.Le b := by
  induction h with
  | nil => exact nomatch hb
  | cons hab _ ih =>
    rcases mem_cons.1 hb with rfl | hb
    · exact ⟨_, mem_cons_self, hab⟩
    · obtain ⟨a, ha, hle⟩ := ih hb
      exact ⟨a, mem_cons_of_mem _ ha, hle⟩

/-! ## The invariant -/

/-- The invariant of the slot operations. -/
structure SlotTrace.Inv (t : SlotTrace) : Prop where
  agree : t.state.poisoned = false → t.slots = t.state.file.slots
  valid : t.state.records.Valid
  file_nodup : t.state.file.names.Nodup
  /-- an inactive store has no slot to keep history for -/
  active_spec : t.state.active = false → ∀ slot ∈ t.state.file.slots, slot.lost = true
  /-- what is staged under a name was staged for the slot that has the name now -/
  pending_spec : ∀ name revision, t.state.pending name = some revision →
    name ∈ t.names ∧ (name, t.generation name, revision) ∈ t.staged
  staged_le : ∀ name g revision, (name, g, revision) ∈ t.staged → g ≤ t.generation name
  /-- an acknowledgement not applied is still staged, or a larger one is -/
  staged_pending : ∀ slot ∈ t.slots, ∀ revision,
    (slot.name, t.generation slot.name, revision) ∈ t.staged → slot.lost = false →
    slot.written < revision →
    ∃ later, t.state.pending slot.name = some later ∧ revision ≤ later

theorem SlotsLater.refl (hnodup : (l.map FeedSlotRecord.name).Nodup) (g : String → ℕ) :
    SlotsLater l l g g :=
  .of_le (fun _ hb => mem_map_of_mem hb) fun a ha b hb hname => by
    rw [inj_on_of_nodup_map hnodup hb ha hname]
    exact FeedSlotRecord.Le.refl a

/-- A step that touches no slot. -/
theorem SlotTrace.Inv.later_same (hinv : t.Inv) (hslots : u.slots = t.slots)
    (hfile : u.state.file = t.state.file) (hle : t.watermark ≤ u.watermark)
    (hgen : u.generation = t.generation) : t.Later u where
  watermark_le := hle
  generation_le name := (congrFun hgen name).ge
  memory := by
    rw [hslots, hgen]
    exact .refl hinv.valid.nodup _
  file := by
    rw [hfile, hgen]
    exact .refl hinv.file_nodup _

theorem SlotTrace.le_generationWith (t : SlotTrace) (file : FeedSlotRecords) (name : String) :
    t.generation name ≤ t.generationWith file name := by
  unfold SlotTrace.generationWith
  split
  · exact Nat.le_succ _
  · exact le_rfl

theorem SlotTrace.generationWith_of_new {file : FeedSlotRecords} (hnot : name ∉ t.state.file.names)
    (h : name ∈ file.names) : t.generationWith file name = t.generation name + 1 :=
  if_pos ⟨hnot, h⟩

/-- The names in the file are those in memory. -/
theorem SlotTrace.Inv.file_names (hinv : t.Inv) (hok : t.state.poisoned = false) :
    t.state.file.names = t.names :=
  congrArg (List.map FeedSlotRecord.name) (hinv.agree hok).symm

/-- A name that is there keeps its generation. -/
theorem SlotTrace.Inv.generationWith_eq (hinv : t.Inv) (hok : t.state.poisoned = false)
    {file : FeedSlotRecords} (h : name ∈ t.names) : t.generationWith file name = t.generation name :=
  if_neg fun hnot => hnot.1 ((hinv.file_names hok).symm ▸ h)

/-- Without a new name no generation begins. -/
theorem SlotTrace.Inv.generationWith_of_sub (hinv : t.Inv) (hok : t.state.poisoned = false)
    (hsub : ∀ b ∈ next.slots, b.name ∈ t.names) : t.generationWith next = t.generation := by
  funext name
  refine if_neg fun h => ?_
  obtain ⟨b, hb, rfl⟩ := mem_map.1 h.2
  exact h.1 (hinv.file_names hok ▸ hsub b hb)

/-- The file is replaced, where slots of a name that was there are edited ones. -/
theorem SlotTrace.Inv.slotsLater (hinv : t.Inv) (hok : t.state.poisoned = false)
    (hslots : ∀ a ∈ t.slots, ∀ b ∈ next.slots, b.name = a.name → a.Le b) :
    SlotsLater t.slots next.slots t.generation (t.generationWith next) where
  fresh b hb hnot := by
    rw [SlotTrace.generationWith_of_new (hinv.file_names hok ▸ hnot) (mem_names hb)]
    exact Nat.lt_succ_self _
  slot_le a ha b hb hname _ := hslots a ha b hb hname

/-- A step that replaces memory and file with the same slots. -/
theorem SlotTrace.Inv.later_install (hinv : t.Inv) (hok : t.state.poisoned = false)
    (hslots : ∀ a ∈ t.slots, ∀ b ∈ next.slots, b.name = a.name → a.Le b)
    {pending : String → Option ℕ} (hle : t.watermark ≤ next.durableWatermark) :
    t.Later ⟨{ t.state.install next with pending := pending }, t.generationWith next, t.staged⟩ where
  watermark_le := hle
  generation_le := t.le_generationWith next
  memory := hinv.slotsLater hok hslots
  file := by
    rw [← hinv.agree hok]
    exact hinv.slotsLater hok hslots

theorem SlotTrace.Inv.le_of_forall₂ (hinv : t.Inv)
    (hslots : List.Forall₂ FeedSlotRecord.Le t.slots next.slots) :
    (∀ b ∈ next.slots, b.name ∈ t.names)
      ∧ ∀ a ∈ t.slots, ∀ b ∈ next.slots, b.name = a.name → a.Le b := by
  constructor
  · intro b hb
    change _ ∈ t.slots.map FeedSlotRecord.name
    rw [← names_eq_of_forall₂ hslots]
    exact mem_map_of_mem hb
  · intro a ha b hb hname
    obtain ⟨a', ha', hle⟩ := exists_of_forall₂ hslots hb
    rwa [hinv.valid.eq_of_name ha ha' (hname.symm.trans hle.name_eq)]

theorem SlotTrace.Inv.le_of_eraseP (hinv : t.Inv)
    (hslots : next.slots = t.slots.eraseP (·.name == name)) :
    (∀ b ∈ next.slots, b.name ∈ t.names)
      ∧ ∀ a ∈ t.slots, ∀ b ∈ next.slots, b.name = a.name → a.Le b := by
  have hmem : ∀ b ∈ next.slots, b ∈ t.slots := by
    intro b hb
    rw [hslots] at hb
    exact mem_of_mem_eraseP hb
  exact ⟨fun b hb => mem_names (hmem b hb), fun a ha b hb => hinv.valid.le_of_mem ha (hmem b hb)⟩

theorem SlotTrace.Step.later (h : t.Step u) (hinv : t.Inv) : t.Later u := by
  cases h with
  | poison => exact hinv.later_same rfl rfl le_rfl rfl
  | raise w hempty hle => exact hinv.later_same rfl rfl hle rfl
  | stage slot revision hmem => exact hinv.later_same rfl rfl le_rfl rfl
  | discard pending hsub hkeep => exact hinv.later_same rfl rfl le_rfl rfl
  | unknown next hok hvalid hslots =>
    refine ⟨le_rfl, t.le_generationWith next, ?_, ?_⟩
    · exact .of_le (fun _ hb => mem_map_of_mem hb) fun _ ha _ => hinv.valid.le_of_mem ha
    · rw [← hinv.agree hok]
      exact hinv.slotsLater hok hslots
  | update next hok hvalid hslots hle =>
    obtain ⟨hsub, hslots⟩ := hinv.le_of_forall₂ hslots
    exact hinv.generationWith_of_sub hok hsub ▸ hinv.later_install hok hslots hle
  | add next slot hok hvalid hslots hle =>
    refine hinv.later_install hok (fun a ha b hb => hvalid.le_of_mem ?_ hb) hle
    rw [hslots]
    exact mem_append_left _ ha
  | remove next name hok hslots hle hvalid =>
    obtain ⟨hsub, hslots⟩ := hinv.le_of_eraseP hslots
    exact hinv.generationWith_of_sub hok hsub ▸ hinv.later_install hok hslots hle

/-- What `feed_slots_active_` says after records were installed. -/
theorem SlotsState.install_active (h : (s.install next).active = false) :
    ∀ slot ∈ next.slots, slot.lost = true := by
  change next.slots.any (!·.lost) = false at h
  simpa using h

/-- Records are installed, and nothing stays staged under a name that is gone. -/
theorem SlotTrace.Inv.install (hinv : t.Inv) (hok : t.state.poisoned = false) (hvalid : next.Valid)
    (hslots : ∀ a ∈ t.slots, ∀ b ∈ next.slots, b.name = a.name → a.Le b)
    {pending : String → Option ℕ} (hsub : ∀ name revision, pending name = some revision →
      name ∈ next.names ∧ t.state.pending name = some revision)
    (hkeep : ∀ name ∈ next.names, pending name = t.state.pending name) :
    SlotTrace.Inv ⟨{ t.state.install next with pending := pending }, t.generationWith next,
      t.staged⟩ where
  agree _ := rfl
  valid := hvalid
  file_nodup := hvalid.nodup
  active_spec := SlotsState.install_active (s := t.state)
  pending_spec name revision h := by
    obtain ⟨hmem, h⟩ := hsub name revision h
    obtain ⟨hold, hstaged⟩ := hinv.pending_spec name revision h
    refine ⟨hmem, ?_⟩
    dsimp only
    rwa [hinv.generationWith_eq hok hold]
  staged_le name g revision h :=
    (hinv.staged_le name g revision h).trans (t.le_generationWith next name)
  staged_pending b hb revision hstaged hlost hlt := by
    have hmem : b.name ∈ next.names := mem_names hb
    dsimp only at hstaged ⊢
    rw [hkeep _ hmem]
    by_cases hold : b.name ∈ t.names
    · obtain ⟨a, ha, hname⟩ := mem_map.1 hold
      have hle := hslots a ha b hb hname.symm
      -- a slot that is not lost now was not lost, and its position was not above this one
      have halost : a.lost = false := by
        cases h : a.lost with
        | false => rfl
        | true => exact absurd (hle.lost h) (by simp [hlost])
      rw [hinv.generationWith_eq hok hold] at hstaged
      rw [← hname] at hstaged ⊢
      exact hinv.staged_pending a ha revision hstaged halost (hle.written_le.trans_lt hlt)
    · -- nothing is staged yet for a generation that has just begun
      rw [SlotTrace.generationWith_of_new ((hinv.file_names hok).symm ▸ hold) hmem] at hstaged
      have := hinv.staged_le _ _ _ hstaged
      omega

theorem SlotTrace.Step.inv_stage (hinv : t.Inv) {revision : ℕ} (hmem : slot ∈ t.slots) :
    ({ t with
        state := { t.state with
          pending := Function.update t.state.pending slot.name
            (some (max ((t.state.pending slot.name).getD 0) revision)) }
        staged := (slot.name, t.generation slot.name, revision) :: t.staged } :
      SlotTrace).Inv := by
  refine ⟨hinv.agree, hinv.valid, hinv.file_nodup, hinv.active_spec, ?_, ?_, ?_⟩
  · intro name other h
    dsimp only at h ⊢
    rcases eq_or_ne name slot.name with rfl | hne
    · refine ⟨mem_names hmem, ?_⟩
      rw [update_self, Option.some.injEq] at h
      subst h
      -- the larger of the two was staged now or before, for this slot
      rcases max_choice ((t.state.pending slot.name).getD 0) revision with hmax | hmax
      · cases hold : t.state.pending slot.name with
        | none =>
          rw [Option.getD_none, Nat.zero_max]
          exact mem_cons_self
        | some old =>
          rw [hold] at hmax
          rw [hmax]
          exact mem_cons_of_mem _ (hinv.pending_spec _ _ hold).2
      · rw [hmax]
        exact mem_cons_self
    · rw [update_of_ne hne] at h
      obtain ⟨hname, hstaged⟩ := hinv.pending_spec name other h
      exact ⟨hname, mem_cons_of_mem _ hstaged⟩
  · intro name g other h
    rcases mem_cons.1 h with h | h
    · injection h with hname h
      injection h with hg _
      rw [hg, hname]
    · exact hinv.staged_le name g other h
  · intro b hb other hstaged hlost hlt
    dsimp only at hstaged ⊢
    have hold : (b.name, t.generation b.name, other) ∈ t.staged →
        ∃ later, t.state.pending b.name = some later ∧ other ≤ later :=
      fun h => hinv.staged_pending b hb other h hlost hlt
    rcases eq_or_ne b.name slot.name with hname | hne
    · rw [hname, update_self]
      refine ⟨_, rfl, ?_⟩
      rcases mem_cons.1 hstaged with h | h
      · injection h with _ h
        injection h with _ hother
        rw [hother]
        exact le_max_right _ _
      · obtain ⟨later, hpending, hle⟩ := hold h
        rw [← hname, hpending]
        exact hle.trans (le_max_left _ _)
    · rw [update_of_ne hne]
      rcases mem_cons.1 hstaged with h | h
      · injection h with hname _
        exact absurd hname hne
      · exact hold h

theorem SlotTrace.Step.inv_unknown (hinv : t.Inv) (hok : t.state.poisoned = false)
    (hvalid : next.Valid) :
    ({ t with
        state := { t.state with file := next, active := true, poisoned := true }
        generation := t.generationWith next } : SlotTrace).Inv := by
  refine ⟨nofun, hinv.valid, hvalid.nodup, nofun, ?_, ?_, ?_⟩
  · intro name revision h
    obtain ⟨hmem, hstaged⟩ := hinv.pending_spec name revision h
    refine ⟨hmem, ?_⟩
    dsimp only
    rwa [hinv.generationWith_eq hok hmem]
  · intro name g revision h
    exact (hinv.staged_le name g revision h).trans (t.le_generationWith next name)
  · intro b hb revision hstaged hlost hlt
    dsimp only at hstaged
    rw [hinv.generationWith_eq hok (mem_names hb)] at hstaged
    exact hinv.staged_pending b hb revision hstaged hlost hlt

theorem SlotTrace.Step.inv (h : t.Step u) (hinv : t.Inv) : u.Inv := by
  cases h with
  | poison => exact { hinv with agree := nofun }
  | raise w hempty hle =>
    refine { hinv with valid := ⟨hinv.valid.nodup, fun slot hslot => ?_⟩ }
    exact (hinv.valid.written_le slot hslot).trans hle
  | unknown next hok hvalid hslots => exact inv_unknown hinv hok hvalid
  | update next hok hvalid hslots hle =>
    have hnames : next.names = t.names := names_eq_of_forall₂ hslots
    obtain ⟨hsub, hslots⟩ := hinv.le_of_forall₂ hslots
    refine hinv.generationWith_of_sub hok hsub ▸ hinv.install hok hvalid hslots ?_ fun _ _ => rfl
    exact fun name revision h => ⟨hnames ▸ (hinv.pending_spec name revision h).1, h⟩
  | add next slot hok hvalid hslots hle =>
    have hmem : ∀ a ∈ t.slots, a ∈ next.slots := by
      intro a ha
      rw [hslots]
      exact mem_append_left _ ha
    refine hinv.install hok hvalid (fun a ha b hb => hvalid.le_of_mem (hmem a ha) hb) ?_
      fun _ _ => rfl
    intro name revision h
    obtain ⟨a, ha, rfl⟩ := mem_map.1 (hinv.pending_spec name revision h).1
    exact ⟨mem_names (hmem a ha), h⟩
  | remove next name hok hslots hle hvalid =>
    have hnames : ∀ other, other ∈ next.names ↔ other ≠ name ∧ other ∈ t.names := by
      intro other
      have herase : next.names = t.names.erase name := by
        change next.slots.map FeedSlotRecord.name = (t.slots.map FeedSlotRecord.name).erase name
        rw [hslots, erase_eq_eraseP', eraseP_map]
        rfl
      rw [herase]
      exact hinv.valid.nodup.mem_erase_iff
    obtain ⟨hsub, hslots⟩ := hinv.le_of_eraseP hslots
    refine hinv.generationWith_of_sub hok hsub ▸ hinv.install hok hvalid hslots ?_ ?_
    · intro other revision h
      rcases eq_or_ne other name with rfl | hne
      · rw [update_self] at h
        exact nomatch h
      · rw [update_of_ne hne] at h
        exact ⟨(hnames other).2 ⟨hne, (hinv.pending_spec other revision h).1⟩, h⟩
    · exact fun other hother => update_of_ne ((hnames other).1 hother).1 _ _
  | stage slot revision hmem => exact inv_stage hinv hmem
  | discard pending hsub hkeep =>
    refine ⟨hinv.agree, hinv.valid, hinv.file_nodup, hinv.active_spec, ?_, hinv.staged_le, ?_⟩
    · intro name revision h
      exact hinv.pending_spec name revision (hsub name revision h)
    · intro slot hslot revision hstaged hlost hlt
      obtain ⟨later, hpending, hle⟩ :=
        hinv.staged_pending slot hslot revision hstaged hlost hlt
      exact ⟨later, hkeep slot hslot hlost later hpending (hlt.trans_le hle), hle⟩

/-- A path of steps. -/
abbrev SlotTrace.Path : SlotTrace → SlotTrace → Prop := ReflTransGen SlotTrace.Step

theorem SlotTrace.Path.spec (h : t.Path u) (hinv : t.Inv) : u.Inv ∧ t.Later u :=
  Runs.invariant (I := fun u : SlotTrace => u.Inv ∧ t.Later u) h
    ⟨hinv, hinv.later_same rfl rfl le_rfl rfl⟩
    fun _ _ hu hstep => ⟨hstep.inv hu.1, hu.2.trans (hstep.later hu.1)⟩

/-! ## The operations are paths -/

/-- The trace with another state, the history as it was. -/
abbrev SlotTrace.put (t : SlotTrace) (s : SlotsState) : SlotTrace := { t with state := s }

/-- How `Persist` ends. -/
theorem SlotsState.persist_cases (s : SlotsState) (next : FeedSlotRecords)
    (outcome : PersistOutcome) :
    (∃ e, s.persist next outcome = (s, .error e)) ∨
    (∃ b, ({ next with filterFormat := b } : FeedSlotRecords).Valid ∧
      ∃ e, s.persist next outcome =
        ({ s with file := { next with filterFormat := b }, active := true, poisoned := true },
          .error e)) ∨
    (∃ b, ({ next with filterFormat := b } : FeedSlotRecords).Valid ∧
      s.persist next outcome = (s.install { next with filterFormat := b }, .ok ())) := by
  unfold persist
  dsimp only
  split
  · exact .inl ⟨_, rfl⟩
  · next hvalid =>
    have hvalid := valid_of_validateRecords hvalid
    cases outcome with
    | failed e => exact .inl ⟨_, rfl⟩
    | unknown e => exact .inr (.inl ⟨_, hvalid, _, rfl⟩)
    | written => exact .inr (.inr ⟨_, hvalid, rfl⟩)

/-- The file was replaced with no new name in it, and then the write failed. -/
theorem SlotTrace.Inv.unknown_step (hinv : t.Inv) (hok : t.state.poisoned = false)
    (hvalid : next.Valid) (hslots : (∀ b ∈ next.slots, b.name ∈ t.names)
      ∧ ∀ a ∈ t.slots, ∀ b ∈ next.slots, b.name = a.name → a.Le b) :
    t.Step (t.put { t.state with file := next, active := true, poisoned := true }) := by
  have hstep := SlotTrace.Step.unknown t next hok hvalid hslots.2
  rwa [hinv.generationWith_of_sub hok hslots.1] at hstep

/-- An edit that keeps every slot, persisted. -/
theorem SlotTrace.persist_path (hinv : t.Inv) (hok : t.state.poisoned = false)
    (next : FeedSlotRecords) (outcome : PersistOutcome)
    (hslots : List.Forall₂ FeedSlotRecord.Le t.slots next.slots)
    (hle : t.watermark ≤ next.durableWatermark) :
    t.Path (t.put (t.state.persist next outcome).1) := by
  rcases t.state.persist_cases next outcome with ⟨e, h⟩ | ⟨b, hvalid, e, h⟩ | ⟨b, hvalid, h⟩
  · rw [h]
  · rw [h]
    exact .single (hinv.unknown_step hok hvalid (hinv.le_of_forall₂ hslots))
  · rw [h]
    exact .single (.update t { next with filterFormat := b } hok hvalid hslots hle)

theorem SlotTrace.sync_path (hinv : t.Inv) (completed : ℕ) (flush : Option SlotError)
    (outcome : PersistOutcome) : t.Path (t.put (t.state.sync completed flush outcome).1) := by
  have himpl : t.Path (t.put (t.state.syncImpl completed flush outcome).1) := by
    unfold syncImpl
    split
    · exact .refl
    next hok =>
    split
    · exact .refl
    split
    · exact .refl
    next hlt =>
    dsimp only
    split
    · next hempty =>
      exact .single (.raise t completed (isEmpty_iff.1 hempty) (not_le.1 hlt).le)
    · have hpath := persist_path hinv (Bool.not_eq_true _ ▸ hok)
        { t.state.records with durableWatermark := completed } outcome
        (forall₂_same.2 fun slot _ => FeedSlotRecord.Le.refl slot) (not_le.1 hlt).le
      split
      · next h => rwa [h] at hpath
      · next h => rwa [h] at hpath
  unfold sync
  split
  · next h =>
    rw [h] at himpl
    exact himpl.tail (.poison _)
  · next h => rwa [h] at himpl

theorem forall₂_le_map {slots : List FeedSlotRecord} {f : FeedSlotRecord → FeedSlotRecord}
    (h : ∀ slot ∈ slots, slot.Le (f slot)) :
    List.Forall₂ FeedSlotRecord.Le slots (slots.map f) :=
  forall₂_map_right_iff.2 (forall₂_same.2 h)

/-- An edit of the slot `find` gave. -/
theorem SlotTrace.edit_path (hinv : t.Inv) (hok : ¬t.state.poisoned = true) {found : FeedSlotRecord}
    (hfind : t.state.records.find name = some found) {f : FeedSlotRecord → FeedSlotRecord}
    (hf : found.Le (f found)) (outcome : PersistOutcome) :
    t.Path (t.put (t.state.persist (t.state.records.edit name f) outcome).1) := by
  obtain ⟨hmem, hname⟩ := find_some hfind
  refine persist_path hinv (Bool.not_eq_true _ ▸ hok) _ outcome
    (forall₂_le_map fun slot hslot => ?_) le_rfl
  split
  · next heq => rwa [hinv.valid.eq_of_name hslot hmem (heq.trans hname.symm)]
  · exact FeedSlotRecord.Le.refl slot

theorem SlotTrace.bindOwner_path (hinv : t.Inv) (name owner : String) (outcome : PersistOutcome) :
    t.Path (t.put (t.state.bindOwner name owner outcome).1) := by
  unfold bindOwner
  split
  · exact .refl
  split
  · exact .refl
  next hok =>
  split
  · exact .refl
  next found hfind =>
  split
  · exact .refl
  · exact edit_path hinv hok hfind ⟨rfl, le_rfl, id⟩ outcome

theorem SlotTrace.advance_path (hinv : t.Inv) (name : String) (position : FeedPosition)
    (outcome : PersistOutcome) : t.Path (t.put (t.state.advance name position outcome).1) := by
  unfold advance
  split
  · exact .refl
  split
  · exact .refl
  next hok =>
  split
  · exact .refl
  next found hfind =>
  split
  · exact .refl
  split
  · exact .refl
  next hposition =>
  split
  · exact .refl
  · have hle : found.written ≤ position.revision :=
      not_lt.1 fun h => hposition (.inr (.inl h))
    exact edit_path hinv hok hfind ⟨rfl, hle, id⟩ outcome

theorem SlotsState.le_acknowledge (s : SlotsState) (slot : FeedSlotRecord) :
    slot.Le (s.acknowledge slot) := by
  unfold acknowledge
  split
  · exact FeedSlotRecord.Le.refl slot
  · next revision _ =>
    split
    · exact FeedSlotRecord.Le.refl slot
    · next h =>
      have hlt : slot.written < revision := not_le.1 fun hle => h (.inr (.inr hle))
      exact ⟨rfl, hlt.le, id⟩

theorem SlotTrace.discardAcks_path (hinv : t.Inv) : t.Path (t.put t.state.discardAcks) := by
  refine .single (.discard t _ ?_ ?_)
  · intro name revision h
    split at h
    · exact nomatch h
    split at h
    · exact nomatch h
    next hpending =>
    split at h
    · exact nomatch h
    · rwa [hpending]
  · intro slot hslot hlost revision hpending hlt
    split
    · next hfind =>
      exact absurd (mem_names hslot) (find_none.1 hfind)
    · next found hfind =>
      obtain ⟨hmem, hname⟩ := find_some hfind
      rw [hpending, hinv.valid.eq_of_name hmem hslot hname]
      exact if_neg (by simp [hlost, hlt])

theorem SlotTrace.flushAcks_path (hinv : t.Inv) (due : Bool) (outcome : PersistOutcome) :
    t.Path (t.put (t.state.flushAcks due outcome).1) := by
  unfold flushAcks
  split
  · exact .refl
  next hok =>
  split
  · exact .refl
  dsimp only
  split
  · exact discardAcks_path hinv
  · have hpath := persist_path hinv (Bool.not_eq_true _ ▸ hok)
      { t.state.records with slots := t.slots.map t.state.acknowledge }
      outcome (forall₂_le_map fun slot _ => t.state.le_acknowledge slot) le_rfl
    split
    · next h => rwa [h] at hpath
    · next h =>
      rw [h] at hpath
      exact hpath.trans (discardAcks_path (hpath.spec hinv).1)

theorem SlotsState.le_giveUp (s : SlotsState) (retainedBytes : ℕ → ℕ) (slot : FeedSlotRecord) :
    slot.Le (s.giveUp retainedBytes slot) := by
  unfold giveUp
  split
  · exact ⟨rfl, le_rfl, fun _ => rfl⟩
  · exact FeedSlotRecord.Le.refl slot

theorem SlotTrace.markLost_path (hinv : t.Inv) (retainedBytes : ℕ → ℕ) (outcome : PersistOutcome) :
    t.Path (t.put (t.state.markLost retainedBytes outcome).1) := by
  unfold markLost
  split
  · exact .refl
  next hok =>
  dsimp only
  split
  · exact .refl
  have hpath := persist_path hinv (Bool.not_eq_true _ ▸ hok)
    { t.state.records with slots := t.slots.map (t.state.giveUp retainedBytes) } outcome
    (forall₂_le_map fun slot _ => t.state.le_giveUp retainedBytes slot) le_rfl
  rcases t.state.persist_cases { t.state.records with
      slots := t.slots.map (t.state.giveUp retainedBytes) } outcome with
    ⟨e, h⟩ | ⟨b, hvalid, e, h⟩ | ⟨b, hvalid, h⟩
  · rw [h]
  · rw [h] at hpath ⊢
    exact hpath
  · rw [h] at hpath ⊢
    refine hpath.tail (.discard _ _ ?_ ?_)
    · intro name revision h
      split at h
      · exact nomatch h
      · exact h
    · -- the slots given up are lost now, so none of them is asked for
      intro slot hslot hlost revision hpending hlt
      refine (if_neg ?_).trans hpending
      rw [mem_map]
      rintro ⟨a, ha, hname⟩
      obtain ⟨hmem, hexceeds⟩ := mem_filter.1 ha
      obtain ⟨a', hmem', rfl⟩ := mem_map.1 hslot
      rw [(t.state.le_giveUp retainedBytes a').name_eq] at hname
      rw [← hinv.valid.eq_of_name hmem hmem' hname, giveUp, if_pos hexceeds] at hlost
      exact nomatch hlost

theorem SlotTrace.drop_path (hinv : t.Inv) (name : String) (ifExists : Bool)
    (outcome : PersistOutcome) : t.Path (t.put (t.state.drop name ifExists outcome).1) := by
  unfold SlotsState.drop
  split
  · exact .refl
  split
  · exact .refl
  next hok =>
  have hok : t.state.poisoned = false := Bool.not_eq_true _ ▸ hok
  split
  · exact .refl
  dsimp only
  rcases t.state.persist_cases { t.state.records with
      slots := t.slots.eraseP (·.name == name) } outcome with
    ⟨e, h⟩ | ⟨b, hvalid, e, h⟩ | ⟨b, hvalid, h⟩
  · rw [h]
  · rw [h]
    exact .single (hinv.unknown_step hok hvalid (hinv.le_of_eraseP rfl))
  · rw [h]
    exact .single (.remove t { t.state.records with
      slots := t.slots.eraseP (·.name == name), filterFormat := b } name hok rfl le_rfl hvalid)

/-- A path that begins no generation shows no new name. -/
theorem SlotTrace.Later.generationWith_eq {staged : List (String × ℕ × ℕ)}
    (hlater : t.Later ⟨s, t.generation, staged⟩) : t.generationWith s.file = t.generation := by
  funext name
  refine if_neg fun h => ?_
  obtain ⟨b, hb, rfl⟩ := mem_map.1 h.2
  exact lt_irrefl _ (hlater.file.fresh b hb h.1)

theorem SlotTrace.Inv.move_eq (hinv : t.Inv) (hpath : t.Path (t.put s)) : t.move s = t.put s := by
  unfold SlotTrace.move SlotTrace.put
  rw [(hpath.spec hinv).2.generationWith_eq]

/-- A `Sync` that does not throw changes no slot and does not freeze the store. -/
theorem SlotsState.sync_ok {s' : SlotsState} {completed : ℕ} {flush : Option SlotError}
    {outcome : PersistOutcome} {advanced : Bool}
    (h : s.sync completed flush outcome = (s', .ok advanced)) :
    s'.records.slots = s.records.slots ∧ s'.poisoned = s.poisoned := by
  have himpl : s.syncImpl completed flush outcome = (s', .ok advanced) := by
    unfold sync at h
    split at h
    · exact nomatch congrArg Prod.snd h
    · next hs => rwa [hs]
  unfold syncImpl at himpl
  split at himpl
  · exact nomatch congrArg Prod.snd himpl
  split at himpl
  · exact nomatch congrArg Prod.snd himpl
  split at himpl
  · cases himpl
    exact ⟨rfl, rfl⟩
  dsimp only at himpl
  split at himpl
  · cases himpl
    exact ⟨rfl, rfl⟩
  rcases s.persist_cases { s.records with durableWatermark := completed } outcome with
    ⟨e, hs⟩ | ⟨b, hvalid, e, hs⟩ | ⟨b, hvalid, hs⟩ <;> rw [hs] at himpl <;> cases himpl
  exact ⟨rfl, rfl⟩

/-- The end of `Create`: a new slot, or nothing new. -/
theorem SlotTrace.createSynced_path (hinv : t.Inv) (hok : t.state.poisoned = false) (name : String)
    (completed : ℕ) (ifNotExists : Bool) (filters : FeedSlotFilters) (owner : Option String)
    (outcome : PersistOutcome) :
    t.Path (t.move (t.state.createSynced name completed ifNotExists filters owner outcome).1) := by
  have hsame : t.Path (t.move t.state) := by rw [hinv.move_eq .refl]
  unfold createSynced
  split
  · split <;> exact hsame
  dsimp only
  rcases t.state.persist_cases { t.state.records with
      slots := t.slots ++ [⟨name, completed, false, filters, false, owner⟩] } outcome with
    ⟨e, h⟩ | ⟨b, hvalid, e, h⟩ | ⟨b, hvalid, h⟩
  · rw [h]
    exact hsame
  · rw [h]
    exact .single (.unknown t _ hok hvalid fun a ha b =>
      hvalid.le_of_mem (mem_append_left _ ha))
  · rw [h]
    exact .single (.add t { t.state.records with
      slots := t.slots ++ [⟨name, completed, false, filters, false, owner⟩], filterFormat := b }
      _ hok hvalid rfl le_rfl)

/-- `Create` is a sync and then a new slot, or nothing new. -/
theorem SlotTrace.create_path (hinv : t.Inv) (name : String) (completed : ℕ) (ifNotExists : Bool)
    (filters : FeedSlotFilters) (owner : Option String) (flush : Option SlotError)
    (syncOutcome outcome : PersistOutcome) :
    t.Path (t.move
      (t.state.create name completed ifNotExists filters owner flush syncOutcome outcome).1) := by
  have hquiet : ∀ {s : SlotsState}, t.Path (t.put s) → t.Path (t.move s) := fun h => by
    rwa [hinv.move_eq h]
  unfold create
  split
  · exact hquiet .refl
  split
  · exact hquiet .refl
  next hok =>
  have hok : t.state.poisoned = false := Bool.not_eq_true _ ▸ hok
  split
  · exact hquiet .refl
  have hsync := sync_path hinv completed flush syncOutcome
  split
  · next h =>
    rw [h] at hsync
    exact hquiet hsync
  next s _ h =>
  rw [h] at hsync
  obtain ⟨hslots, hpoisoned⟩ := sync_ok h
  have hok' : s.poisoned = false := hpoisoned.trans hok
  have hinv' := (hsync.spec hinv).1
  have hpath := createSynced_path hinv' hok' name completed ifNotExists filters owner outcome
  -- the sync left the names in the file, so a new name is new for both
  have hnames : s.file.names = t.state.file.names :=
    (hinv'.file_names hok').trans
      ((congrArg (List.map FeedSlotRecord.name) hslots).trans (hinv.file_names hok).symm)
  have hmove : ∀ s', (t.put s).move s' = t.move s' := by
    intro s'
    unfold SlotTrace.move
    congr 1
    funext other
    unfold SlotTrace.generationWith
    rw [hnames]
  rw [hmove] at hpath
  exact hsync.trans hpath

/-- `StageAck` stages a position for the slot of its name, or changes nothing. -/
theorem SlotsState.stageAck_cases (s : SlotsState) (name : String) (position : FeedPosition) :
    (s.stages name position = false ∧ (s.stageAck name position).1 = s) ∨
    (s.stages name position = true ∧ ∃ slot ∈ s.records.slots, slot.name = name ∧
      (s.stageAck name position).1 = { s with
        pending := update s.pending name
          (some (max ((s.pending name).getD 0) position.revision)) }) := by
  unfold stageAck stages
  cases hpoisoned : s.poisoned with
  | true => exact .inl ⟨rfl, rfl⟩
  | false =>
    cases hfind : s.records.find name with
    | none => exact .inl ⟨rfl, rfl⟩
    | some found =>
      obtain ⟨hmem, hname⟩ := find_some hfind
      cases hlost : found.lost with
      | true => exact .inl ⟨by simp [hlost], by simp [hlost]⟩
      | false =>
        by_cases hepoch : position.epoch = s.records.epoch
        · by_cases hle : position.revision ≤ found.written
          · exact .inl ⟨by simp [hle], by simp [hlost, hepoch, hle]⟩
          · refine .inr ⟨by simp [hlost, hepoch, not_le.1 hle], found, hmem, hname, ?_⟩
            simp [hlost, hepoch, hle]
        · exact .inl ⟨by simp [hepoch], by simp [hlost, hepoch]⟩

theorem SlotTrace.stageAck_path (t : SlotTrace) (name : String) (position : FeedPosition) :
    t.Path { t with
      state := (t.state.stageAck name position).1
      staged := (SlotOp.stageAck name position).stagedBy t ++ t.staged } := by
  rcases t.state.stageAck_cases name position with ⟨hnot, h⟩ | ⟨hstages, slot, hmem, rfl, h⟩
  · rw [h, show (SlotOp.stageAck name position).stagedBy t = [] from if_neg (by simp [hnot])]
    exact .refl
  · rw [h, show (SlotOp.stageAck slot.name position).stagedBy t = [_] from if_pos hstages]
    exact .single (.stage t slot position.revision hmem)

/-- Every operation but `Create` is a path that begins no generation. -/
theorem SlotTrace.Inv.quiet_path (hinv : t.Inv) {op : SlotOp} (hop : op.isCreate = false) :
    t.Path { t with state := (op.run t.state).1, staged := op.stagedBy t ++ t.staged } := by
  cases op with
  | create => exact nomatch hop
  | drop name ifExists outcome => exact drop_path hinv name ifExists outcome
  | bindOwner name owner outcome => exact bindOwner_path hinv name owner outcome
  | advance name position outcome => exact advance_path hinv name position outcome
  | flushAcks due outcome => exact flushAcks_path hinv due outcome
  | sync completed flush outcome => exact sync_path hinv completed flush outcome
  | retain retainedBytes outcome => exact markLost_path hinv retainedBytes outcome
  | stageAck name position => exact t.stageAck_path name position

theorem SlotTrace.Inv.generation_apply (hinv : t.Inv) {op : SlotOp} (hop : op.isCreate = false) :
    (t.apply op).generation = t.generation :=
  ((hinv.quiet_path hop).spec hinv).2.generationWith_eq

theorem SlotTrace.apply_path (hinv : t.Inv) (op : SlotOp) : t.Path (t.apply op) := by
  cases hop : op.isCreate with
  | false =>
    suffices heq : t.apply op = _ from heq ▸ hinv.quiet_path hop
    exact SlotTrace.mk.injEq .. |>.mpr ⟨rfl, hinv.generation_apply hop, rfl⟩
  | true =>
    cases op with
    | create name completed ifNotExists filters owner flush syncOutcome outcome =>
      exact create_path hinv name completed ifNotExists filters owner flush syncOutcome outcome
    | _ => exact nomatch hop

/-! ## Runs -/

theorem SlotTrace.run_path (hinv : t.Inv) (ops : List SlotOp) : t.Path (t.run ops) := by
  induction ops generalizing t with
  | nil => exact .refl
  | cons op ops ih =>
    have hpath := apply_path hinv op
    exact hpath.trans (ih (hpath.spec hinv).1)

theorem SlotTrace.inv_opened (h : validateRecords records = .ok ()) (maxBytes : ℕ) :
    (SlotTrace.opened records maxBytes).Inv where
  agree _ := rfl
  valid := valid_of_validateRecords h
  file_nodup := (valid_of_validateRecords h).nodup
  active_spec := SlotsState.install_active (s := SlotsState.opened records maxBytes)
  pending_spec _ _ h := nomatch h
  staged_le _ _ _ h := nomatch h
  staged_pending _ _ _ h := nomatch h

/-- The name is checked first, so it may be the name that is refused. -/
theorem SlotResult.checked_poisoned {A : Type} (h : s.poisoned = true) (check : Fallible Unit)
    (r : SlotResult A) :
    ∃ e, ((match check with
      | .error e => (s, .error (.thrown e))
      | .ok () => if s.poisoned then (s, .error .failClosed) else r) : SlotResult A) =
        (s, .error e) := by
  cases check with
  | error e => exact ⟨_, rfl⟩
  | ok u => exact ⟨_, if_pos h⟩

/-- A frozen store refuses every operation. -/
theorem SlotOp.run_poisoned (h : s.poisoned = true) (op : SlotOp) :
    ∃ e, op.run s = (s, some e) := by
  have hrefuse : ∀ {A : Type} {r : SlotResult A}, (∃ e, r = (s, .error e)) →
      ∃ e, r.done = (s, some e) := by
    rintro A r ⟨e, rfl⟩
    exact ⟨e, rfl⟩
  cases op with
  | create => exact hrefuse (SlotResult.checked_poisoned h ..)
  | drop => exact hrefuse (SlotResult.checked_poisoned h ..)
  | bindOwner => exact hrefuse (SlotResult.checked_poisoned h ..)
  | advance => exact hrefuse (SlotResult.checked_poisoned h ..)
  | stageAck => exact hrefuse ⟨_, if_pos h⟩
  | flushAcks => exact hrefuse ⟨_, if_pos h⟩
  | retain => exact hrefuse ⟨_, if_pos h⟩
  | sync completed flush outcome =>
    refine hrefuse ⟨.failClosed, ?_⟩
    unfold SlotsState.sync SlotsState.syncImpl
    rw [if_pos h]
    dsimp only
    rw [← h]

/-- `FlushAcks` moves a slot only to the position staged under its name, once the
watermark covers it. -/
theorem SlotsState.flushAcks_written (hvalid : s.records.Valid) (due : Bool)
    (outcome : PersistOutcome) (ha : a ∈ s.records.slots)
    (hb : b ∈ (s.flushAcks due outcome).1.records.slots) (hname : b.name = a.name)
    (hne : b.written ≠ a.written) :
    b.written ≤ s.records.durableWatermark ∧ s.pending b.name = some b.written := by
  have hslots : (s.flushAcks due outcome).1.records.slots = s.records.slots ∨
      (s.flushAcks due outcome).1.records.slots = s.records.slots.map s.acknowledge := by
    unfold flushAcks
    split
    · exact .inl rfl
    split
    · exact .inl rfl
    dsimp only
    split
    · exact .inl rfl
    rcases s.persist_cases { s.records with slots := s.records.slots.map s.acknowledge } outcome
      with ⟨e, h⟩ | ⟨b, -, e, h⟩ | ⟨b, -, h⟩
    · rw [h]
      exact .inl rfl
    · rw [h]
      exact .inl rfl
    · rw [h]
      exact .inr rfl
  rcases hslots with hslots | hslots
  · rw [hslots] at hb
    exact absurd (congrArg _ (hvalid.eq_of_name hb ha hname)) hne
  · rw [hslots] at hb
    obtain ⟨a', ha', rfl⟩ := mem_map.1 hb
    obtain rfl := hvalid.eq_of_name ha' ha ((s.le_acknowledge a').name_eq.symm.trans hname)
    rw [hname]
    unfold acknowledge at hne ⊢
    split at hne
    · exact absurd rfl hne
    next revision hpending =>
    split at hne
    · exact absurd rfl hne
    next hnot =>
    rw [hpending, if_neg hnot]
    exact ⟨not_lt.1 fun h => hnot (.inr (.inl h)), rfl⟩

/-- **The slot state machine.**  After any operations: unless the store is frozen, the
slots in memory are those in the file, and a frozen store refuses everything; positions
are at or below the watermark; in every later state the watermark is no lower and a slot
that is still there is at no lower position and keeps its lost mark; an acknowledgement
staged for a live slot and not applied is still staged, or a larger one is; and a flush
moves a slot only to a position staged for that very slot, once the watermark covers it. -/
theorem slot_state_machine {records : FeedSlotRecords} (hvalid : validateRecords records = .ok ())
    (maxBytes : ℕ) (ops : List SlotOp) :
    let t := (SlotTrace.opened records maxBytes).run ops
    (t.state.poisoned = false → t.slots = t.state.file.slots) ∧
    (t.state.poisoned = true → ∀ op : SlotOp, ∃ e, op.run t.state = (t.state, some e)) ∧
    (∀ slot ∈ t.slots, slot.written ≤ t.watermark) ∧
    (∀ more, t.watermark ≤ (t.run more).watermark ∧
      ∀ a ∈ t.slots, ∀ b ∈ (t.run more).slots, b.name = a.name →
        (t.run more).generation a.name = t.generation a.name →
        a.written ≤ b.written ∧ (a.lost → b.lost)) ∧
    (∀ slot ∈ t.slots, ∀ revision,
      (slot.name, t.generation slot.name, revision) ∈ t.staged → slot.lost = false →
      slot.written < revision →
      ∃ later, t.state.pending slot.name = some later ∧ revision ≤ later) ∧
    (∀ due outcome, ∀ a ∈ t.slots, ∀ b ∈ (t.apply (.flushAcks due outcome)).slots,
      b.name = a.name → b.written ≠ a.written →
      b.written ≤ t.watermark ∧ (b.name, t.generation b.name, b.written) ∈ t.staged) := by
  intro t
  have hstart := SlotTrace.inv_opened hvalid maxBytes
  have hinv : t.Inv := ((SlotTrace.run_path hstart ops).spec hstart).1
  refine ⟨hinv.agree, SlotOp.run_poisoned, hinv.valid.written_le, ?_, hinv.staged_pending, ?_⟩
  · intro more
    have hlater := ((SlotTrace.run_path hinv more).spec hinv).2
    refine ⟨hlater.watermark_le, fun a ha b hb hname hgen => ?_⟩
    have hle := hlater.memory.slot_le a ha b hb hname hgen
    exact ⟨hle.written_le, hle.lost⟩
  · intro due outcome a ha b hb hname hne
    obtain ⟨hle, hpending⟩ :=
      flushAcks_written hinv.valid due outcome ha hb hname hne
    exact ⟨hle, (hinv.pending_spec _ _ hpending).2⟩

/-- A table with one slot at revision 3. -/
def oneSlotRecords : FeedSlotRecords :=
  ⟨StoreId.ofByte 1, 5, [⟨"a", 3, false, ⟨none, none, false, false⟩, false, none⟩], false⟩

/-- An acknowledgement above the watermark waits for the sync that covers it. -/
theorem slot_state_machine_one_slot :
    let t := (SlotTrace.opened oneSlotRecords 100).run
      [.stageAck "a" ⟨oneSlotRecords.epoch, 7⟩, .flushAcks true .written, .sync 8 none .written,
        .flushAcks true .written]
    t.slots.map FeedSlotRecord.written = [7] ∧ t.slots = t.state.file.slots ∧
      ∀ slot ∈ t.slots, slot.written ≤ t.watermark := by
  have h := @slot_state_machine oneSlotRecords (by decide) 100
    [.stageAck "a" ⟨oneSlotRecords.epoch, 7⟩, .flushAcks true .written, .sync 8 none .written,
      .flushAcks true .written]
  exact ⟨by decide, h.1 (by decide), h.2.2.1⟩

end ChunkDb
