/-
# The ring of large chunks that eviction sweeps

Eviction takes its candidates from the large chunks of a ring, from a cursor on and round after
round (`RefillEvictionCandidatesBounded`).  A large chunk that is dropped leaves the ring, which
is compacted in place (`RemoveLargeChunkFromEvictionRing`), and the cursor moves with what is
left (`eviction.cpp`).

`EvictionRing.order` is the ring as the sweep sees it, from the cursor once around.  A removal
filters it and a refill rotates it, whatever the cursor is.
-/
import Mathlib.Tactic

open List

namespace ChunkDb

/-! ## The model -/

/-- `eviction_large_chunk_ring_`, of coordinates of large chunks, and
`eviction_large_chunk_cursor_`. -/
structure EvictionRing (C : Type) where
  ring : List C
  cursor : ℕ
  deriving DecidableEq

/-- The ring while it is compacted, with `write_index` and `removed_before_cursor`. -/
structure RingCompaction (C : Type) where
  ring : List C
  writeIndex : ℕ
  removedBeforeCursor : ℕ

def kEvictionRefillLargeChunkBudget : ℕ := 16

namespace EvictionRing

variable {C : Type} [DecidableEq C]

/-- One round of the loop that compacts the ring. -/
def compact (coord : C) (cursor : ℕ) (s : RingCompaction C) (readIndex : ℕ) : RingCompaction C :=
  match s.ring[readIndex]? with
  | none => s
  | some found =>
    if found = coord then
      if readIndex < cursor then { s with removedBeforeCursor := s.removedBeforeCursor + 1 } else s
    else { s with
      ring := if s.writeIndex ≠ readIndex then s.ring.set s.writeIndex found else s.ring
      writeIndex := s.writeIndex + 1 }

variable (s : EvictionRing C)

/-- `RemoveLargeChunkFromEvictionRing`. -/
def removeLargeChunk (coord : C) : EvictionRing C :=
  if s.ring = [] then { s with cursor := 0 }
  else
    let left := (List.range s.ring.length).foldl (compact coord s.cursor) ⟨s.ring, 0, 0⟩
    if left.writeIndex = s.ring.length then { s with ring := left.ring }
    else
      let ring := left.ring.take left.writeIndex
      if ring = [] then ⟨ring, 0⟩
      else if s.cursor ≤ left.removedBeforeCursor then ⟨ring, 0⟩
      else
        let cursor := s.cursor - left.removedBeforeCursor
        ⟨ring, if ring.length ≤ cursor then cursor % ring.length else cursor⟩

/-- The loop of `RefillEvictionCandidatesBounded`: the slots it visits, and the cursor after them.
It counts the slots, and against its budget those whose large chunk is still there. -/
def visitSlots (ring : List C) (present : C → Bool) : ℕ → ℕ → ℕ → List C × ℕ
  | 0, _, cursor | _ + 1, 0, cursor => ([], cursor)
  | slots + 1, budget + 1, cursor =>
    match ring[cursor]? with
    | none => ([], cursor)
    | some coord =>
      let rest := visitSlots ring present slots (if present coord then budget else budget + 1)
        ((cursor + 1) % ring.length)
      (coord :: rest.1, rest.2)

/-- The slots that `RefillEvictionCandidatesBounded` visits. -/
def refill (present : C → Bool) : List C × ℕ :=
  visitSlots s.ring present s.ring.length kEvictionRefillLargeChunkBudget s.cursor

/-- Refills and removals one after another, with the slots that are visited. -/
inductive Sweep : EvictionRing C → List C → EvictionRing C → Prop
  | done (s : EvictionRing C) : Sweep s [] s
  | refill {s s' : EvictionRing C} {visited} (present : C → Bool) :
      Sweep { s with cursor := (s.refill present).2 } visited s' →
      Sweep s ((s.refill present).1 ++ visited) s'
  | remove {s s' : EvictionRing C} {visited} (coord : C) :
      Sweep (s.removeLargeChunk coord) visited s' → Sweep s visited s'

/-- The cursor is inside the ring. -/
def Inside : Prop := s.cursor < s.ring.length ∨ s.ring = [] ∧ s.cursor = 0

/-- The ring from the cursor on. -/
def order : List C := s.ring.rotate s.cursor

end EvictionRing

/-! ## Rotations -/

section Rotate

variable {A : Type} (p : A → Bool) {l : List A} {n : ℕ}

/-- What a filter leaves in front of a place is as long as the place is far. -/
theorem take_filter_take (l : List A) (n : ℕ) :
    (l.filter p).take ((l.take n).filter p).length = (l.take n).filter p := by
  conv_lhs => rw [← take_append_drop n l, filter_append]
  rw [take_append_drop, take_left]

/-- A filter of a rotation is a rotation of the filtered list. -/
theorem filter_rotate (hn : n ≤ l.length) :
    (l.rotate n).filter p = (l.filter p).rotate ((l.take n).filter p).length := by
  have hsplit : l.filter p = (l.take n).filter p ++ (l.drop n).filter p := by
    rw [← filter_append, take_append_drop]
  rw [rotate_eq_drop_append_take hn, filter_append, hsplit, rotate_append_length_eq]

/-- A list that runs through another one, around and around. -/
def RunsAround (l w : List A) : Prop := ∀ i < w.length, w[i]? = l[i % l.length]?

variable {w : List A}

theorem RunsAround.append (hn : n ≤ l.length) (h : RunsAround (l.rotate n) w) :
    RunsAround l (l.take n ++ w) := by
  intro i hi
  rw [length_append, length_take_of_le hn] at hi
  by_cases hfirst : i < n
  · rw [getElem?_append_left (by rwa [length_take_of_le hn]),
      getElem?_take_of_lt hfirst, Nat.mod_eq_of_lt (hfirst.trans_le hn)]
  · have hlater := h (i - n) (by omega)
    rw [length_rotate] at hlater
    rw [getElem?_append_right (by rw [length_take_of_le hn]; omega), length_take_of_le hn, hlater]
    rcases l.length.eq_zero_or_pos with hzero | hpos
    · simp [length_eq_zero_iff.mp hzero]
    · rw [getElem?_rotate (Nat.mod_lt _ hpos), Nat.mod_add_mod,
        Nat.sub_add_cancel (not_lt.mp hfirst)]

/-- One round of it is a rotation. -/
theorem RunsAround.round (h : RunsAround l w) (hn : n + l.length ≤ w.length) :
    (w.drop n).take l.length = l.rotate n := by
  refine ext_getElem? fun i => ?_
  by_cases hi : i < l.length
  · rw [getElem?_take_of_lt hi, getElem?_drop, h _ (by omega), getElem?_rotate hi, Nat.add_comm]
  · rw [getElem?_eq_none (by rw [length_take]; omega),
      getElem?_eq_none (by rw [length_rotate]; omega)]

end Rotate

namespace EvictionRing

variable {C : Type} {s s' : EvictionRing C} {coord : C} {visited : List C} {present : C → Bool}

/-! ## A refill -/

/-- The slots that are visited are the next ones, and the sweep goes on behind them. -/
theorem visitSlots_spec {ring : List C} (present : C → Bool) (budget : ℕ) {slots cursor : ℕ}
    (hslots : slots ≤ ring.length) (hcursor : cursor < ring.length) :
    ∃ n ≤ slots, (visitSlots ring present slots budget cursor).1 = (ring.rotate cursor).take n
      ∧ (visitSlots ring present slots budget cursor).2 < ring.length
      ∧ ring.rotate (visitSlots ring present slots budget cursor).2
        = (ring.rotate cursor).rotate n := by
  induction slots generalizing budget cursor with
  | zero => exact ⟨0, le_rfl, rfl, hcursor, (rotate_zero _).symm⟩
  | succ slots ih =>
    cases budget with
    | zero => exact ⟨0, Nat.zero_le _, rfl, hcursor, (rotate_zero _).symm⟩
    | succ budget =>
      have hring : ring.rotate cursor
          = ring[cursor] :: (ring.drop (cursor + 1) ++ ring.take cursor) := by
        rw [rotate_eq_drop_append_take hcursor.le, drop_eq_getElem_cons hcursor, cons_append]
      have hlength : (ring.drop (cursor + 1) ++ ring.take cursor).length + 1 = ring.length := by
        rw [← length_cons, ← hring, length_rotate]
      have hnext : ring.rotate ((cursor + 1) % ring.length)
          = ring.drop (cursor + 1) ++ ring.take cursor ++ [ring[cursor]] := by
        rw [rotate_mod, ← rotate_rotate, hring, rotate_cons_succ, rotate_zero]
      obtain ⟨n, hn, hvisited, hlast, hrest⟩ := ih (if present ring[cursor] then budget
        else budget + 1) (Nat.le_of_succ_le hslots)
        (Nat.mod_lt (cursor + 1) ((Nat.zero_le _).trans_lt hcursor))
      simp only [visitSlots, getElem?_eq_getElem hcursor]
      refine ⟨n + 1, Nat.succ_le_succ hn, ?_, hlast, ?_⟩
      · rw [hvisited, hnext, hring, take_succ_cons, take_append_of_le_length (by omega)]
      · rw [hrest, hnext, hring, rotate_cons_succ]

theorem refill_spec (h : s.Inside) (present : C → Bool) :
    ∃ n ≤ s.order.length, (s.refill present).1 = s.order.take n
      ∧ Inside { s with cursor := (s.refill present).2 }
      ∧ order { s with cursor := (s.refill present).2 } = s.order.rotate n := by
  obtain ⟨ring, cursor⟩ := s
  rcases h with hcursor | ⟨rfl, rfl⟩
  · obtain ⟨n, hn, hvisited, hlast, hrest⟩ := visitSlots_spec present
      kEvictionRefillLargeChunkBudget le_rfl hcursor
    exact ⟨n, hn.trans_eq (length_rotate ..).symm, hvisited, .inl hlast, hrest⟩
  · exact ⟨0, le_rfl, rfl, .inr ⟨rfl, rfl⟩, rfl⟩

/-! ## Removing a large chunk -/

variable [DecidableEq C]

section Compact

variable (coord found : C) (cursor removed : ℕ) (rest kept old : List C)

/-- One round of the loop: `kept` is written already, `old` are the places that are free again. -/
theorem compact_cons : ∃ old' : List C,
    (kept ++ [found].filter (· ≠ coord)).length + old'.length = kept.length + old.length + 1
      ∧ compact coord cursor ⟨kept ++ (old ++ found :: rest), kept.length, removed⟩
          (kept.length + old.length)
        = ⟨kept ++ [found].filter (· ≠ coord) ++ (old' ++ rest),
          (kept ++ [found].filter (· ≠ coord)).length,
          removed + if kept.length + old.length < cursor ∧ found = coord then 1 else 0⟩ := by
  have hfound : (kept ++ (old ++ found :: rest))[kept.length + old.length]? = some found := by simp
  simp only [compact, hfound]
  by_cases heq : found = coord
  · refine ⟨old ++ [found], by simp [heq]; omega, ?_⟩
    split_ifs <;> simp_all
  · cases old with
    | nil => exact ⟨[], by simp [heq], by simp [heq]⟩
    | cons free old => exact ⟨old ++ [found], by simp [heq]; omega, by simp [heq]⟩

/-- The loop over the rest of the ring. -/
theorem foldl_compact : ∃ old' : List C,
    (kept ++ rest.filter (· ≠ coord)).length + old'.length = kept.length + old.length + rest.length
      ∧ (List.range' (kept.length + old.length) rest.length).foldl (compact coord cursor)
          ⟨kept ++ (old ++ rest), kept.length, removed⟩
        = ⟨kept ++ rest.filter (· ≠ coord) ++ old', (kept ++ rest.filter (· ≠ coord)).length,
          removed + (rest.take (cursor - (kept.length + old.length))).count coord⟩ := by
  induction rest generalizing kept old removed with
  | nil => exact ⟨old, by simp, by simp⟩
  | cons found rest ih =>
    obtain ⟨old₁, hlength, hstep⟩ := compact_cons coord found cursor removed rest kept old
    obtain ⟨old', hlength', hloop⟩ := ih (removed + if kept.length + old.length < cursor
      ∧ found = coord then 1 else 0) (kept ++ [found].filter (· ≠ coord)) old₁
    have hfilter : kept ++ (found :: rest).filter (· ≠ coord)
        = kept ++ [found].filter (· ≠ coord) ++ rest.filter (· ≠ coord) := by
      rw [append_assoc, ← filter_append, singleton_append]
    refine ⟨old', ?_, ?_⟩
    · rw [hfilter, hlength', hlength, length_cons]
      omega
    · rw [length_cons, range'_succ, foldl_cons, hstep, ← hlength, hloop, hfilter]
      congr 1
      by_cases hbefore : kept.length + old.length < cursor
      · rw [hlength, show cursor - (kept.length + old.length)
          = cursor - (kept.length + old.length + 1) + 1 by omega, take_succ_cons,
          count_cons]
        simp only [hbefore, true_and, beq_iff_eq]
        omega
      · rw [hlength, if_neg fun h => hbefore h.1, Nat.sub_eq_zero_of_le (by omega),
          Nat.sub_eq_zero_of_le (by omega)]
        rfl

end Compact

theorem length_filter_ne (l : List C) (coord : C) :
    (l.filter (· ≠ coord)).length + l.count coord = l.length := by
  induction l with
  | nil => rfl
  | cons other l ih => by_cases heq : other = coord <;> simp [heq] at ih ⊢ <;> omega

/-- A removal filters the ring, and the order from the cursor on. -/
theorem removeLargeChunk_spec (h : s.Inside) (coord : C) :
    (s.removeLargeChunk coord).ring = s.ring.filter (· ≠ coord)
      ∧ (s.removeLargeChunk coord).Inside
      ∧ (s.removeLargeChunk coord).order = s.order.filter (· ≠ coord) := by
  obtain ⟨ring, cursor⟩ := s
  rcases h with hcursor | ⟨rfl, rfl⟩
  swap
  · exact ⟨rfl, .inr ⟨rfl, rfl⟩, rfl⟩
  change cursor < ring.length at hcursor
  have hne : ring ≠ [] := ne_nil_of_length_pos ((Nat.zero_le _).trans_lt hcursor)
  obtain ⟨old, hlength, hloop⟩ := foldl_compact coord cursor 0 ring [] []
  simp only [nil_append, length_nil, Nat.add_zero, Nat.zero_add, Nat.sub_zero,
    ← range_eq_range'] at hlength hloop
  -- the kept coordinates before the cursor are those it is to pass over
  have hrank := length_filter_ne (ring.take cursor) coord
  have hcount := (take_sublist cursor ring).count_le coord
  have htotal := length_filter_ne ring coord
  have horder := filter_rotate (· ≠ coord) hcursor.le
  rw [length_take_of_le hcursor.le] at hrank
  simp only [removeLargeChunk, if_neg hne, hloop, order, horder, take_left]
  generalize (ring.take cursor).count coord = removed at *
  generalize ((ring.take cursor).filter (· ≠ coord)).length = rank at *
  split_ifs with hall hempty hzero hwrap
  · have hold : old = [] := eq_nil_of_length_eq_zero (by omega)
    rw [hold, append_nil, show rank = cursor by omega]
    exact ⟨rfl, .inl (hcursor.trans_eq hall.symm), rfl⟩
  · rw [hempty]
    exact ⟨rfl, .inr ⟨rfl, rfl⟩, by rw [rotate_nil, rotate_nil]⟩
  · rw [show rank = 0 by omega]
    exact ⟨rfl, .inl (length_pos_of_ne_nil hempty), rfl⟩
  · rw [show cursor - removed = rank by omega]
    exact ⟨rfl, .inl (Nat.mod_lt _ (length_pos_of_ne_nil hempty)), rotate_mod ..⟩
  · rw [show cursor - removed = rank by omega] at hwrap ⊢
    exact ⟨rfl, .inl (not_le.mp hwrap), rfl⟩

/-! ## The sweep -/

/-- A coordinate that is not left at the end may be removed before. -/
theorem filter_ne_filter {l left : List C} (h : coord ∉ left) :
    (l.filter (· ≠ coord)).filter (· ∈ left) = l.filter (· ∈ left) := by
  rw [filter_filter]
  refine filter_congr fun other _ => ?_
  by_cases hmem : other ∈ left
  · have hne : other ≠ coord := ne_of_mem_of_not_mem hmem h
    simp [hmem, hne]
  · simp [hmem]

/-- What a sweep leaves of the ring stands in its order, and the visits of what is left run through
it from the cursor on. -/
structure Swept (s : EvictionRing C) (visited : List C) (s' : EvictionRing C) : Prop where
  inside : s'.Inside
  ring_eq : s'.ring = s.ring.filter (· ∈ s'.ring)
  order_eq : s'.order = (s.order.filter (· ∈ s'.ring)).rotate (visited.filter (· ∈ s'.ring)).length
  runs : RunsAround (s.order.filter (· ∈ s'.ring)) (visited.filter (· ∈ s'.ring))

theorem Swept.refill (h : Swept { s with cursor := (s.refill present).2 } visited s')
    (hs : s.Inside) : Swept s ((s.refill present).1 ++ visited) s' := by
  obtain ⟨n, hn, hvisited, -, horder⟩ := refill_spec hs present
  obtain ⟨hinside, hring, hrest, hruns⟩ := h
  rw [horder, filter_rotate _ hn] at hrest hruns
  refine ⟨hinside, hring, ?_, ?_⟩
  · rw [hrest, rotate_rotate, filter_append, length_append, hvisited]
  · rw [filter_append, hvisited, ← take_filter_take]
    exact hruns.append (((take_sublist n _).filter _).length_le)

theorem Swept.remove (h : Swept (s.removeLargeChunk coord) visited s') (hs : s.Inside) :
    Swept s visited s' := by
  obtain ⟨hring, -, horder⟩ := removeLargeChunk_spec hs coord
  obtain ⟨hinside, hleft, hrest, hruns⟩ := h
  rw [hring] at hleft
  have hgone : coord ∉ s'.ring := by
    intro hmem
    rw [hleft] at hmem
    simpa using mem_of_mem_filter hmem
  rw [filter_ne_filter hgone] at hleft
  rw [horder, filter_ne_filter hgone] at hrest hruns
  exact ⟨hinside, hleft, hrest, hruns⟩

theorem Sweep.swept (h : Sweep s visited s') (hs : s.Inside) : Swept s visited s' := by
  induction h with
  | done s =>
    have hall : ∀ {l : List C}, l ⊆ s.ring → l.filter (· ∈ s.ring) = l :=
      fun hsub => filter_eq_self.mpr fun other hmem => decide_eq_true (hsub hmem)
    refine ⟨hs, (hall (List.Subset.refl _)).symm, ?_, nofun⟩
    rw [order, hall fun other => mem_rotate.mp]
    exact (rotate_zero _).symm
  | refill present _ ih =>
    obtain ⟨-, -, -, hinside, -⟩ := refill_spec hs present
    exact (ih hinside).refill hs
  | remove coord _ ih => exact (ih (removeLargeChunk_spec hs coord).2.1).remove hs

end EvictionRing

end ChunkDb
