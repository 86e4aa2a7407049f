/-
# The smallest elements after a cursor

A bounded window over a linear order: elements arrive in any order, any number of times,
and the window keeps the `bound` smallest ones that lie after its cursor.  Once it has
turned an element away it says so (`overflowed`), and then everything it turned away lies
after all it kept.

* `ScanWindow.insert` takes one element; `closedAt` says when nothing at or after an element
  can still enter, so that a caller may leave a whole range out and `markOverflowed`;
* `ScanWindow.Covers` says where an element that was offered can be found later: it is not
  after the cursor, or it was kept, or it lies past a window that has overflowed.

A caller that empties its windows one after another, each with the last element of the one
before as its cursor, therefore misses nothing.
-/
import Mathlib.Tactic

variable {K : Type*} [LinearOrder K]

/-- A window of at most `bound` elements after the cursor. -/
structure ScanWindow (K : Type*) [LinearOrder K] where
  cursor : Option K
  bound : ℕ
  kept : List K
  overflowed : Bool

namespace ScanWindow

open List

/-- A window that has seen nothing. -/
def empty (cursor : Option K) (bound : ℕ) : ScanWindow K := ⟨cursor, bound, [], false⟩

/-- The element lies after the cursor. -/
def after (w : ScanWindow K) (k : K) : Prop := ∀ c ∈ w.cursor, c < k

instance (w : ScanWindow K) (k : K) : Decidable (w.after k) := by
  unfold after
  infer_instance

/-- Nothing at or after `k` can still enter: the window is full, and `k` is not below its
last element. -/
def closedAt (w : ScanWindow K) (k : K) : Prop :=
  w.bound ≤ w.kept.length ∧ ∀ last ∈ w.kept.getLast?, last ≤ k

instance (w : ScanWindow K) (k : K) : Decidable (w.closedAt k) := by
  unfold closedAt
  infer_instance

/-- What lies past the window was left out. -/
def markOverflowed (w : ScanWindow K) : ScanWindow K := { w with overflowed := true }

/-- Takes one element. -/
def insert (w : ScanWindow K) (k : K) : ScanWindow K :=
  if ¬ w.after k then w
  else if w.closedAt k then { w with overflowed := w.overflowed || decide (k ∉ w.kept) }
  else if k ∈ w.kept then w
  else if w.bound < (w.kept.orderedInsert (· ≤ ·) k).length then
    { w with kept := (w.kept.orderedInsert (· ≤ ·) k).dropLast, overflowed := true }
  else { w with kept := w.kept.orderedInsert (· ≤ ·) k }

/-- What holds of every window that only `insert` and `markOverflowed` have changed. -/
structure Sound (w : ScanWindow K) : Prop where
  bound_pos : 0 < w.bound
  sorted : w.kept.Pairwise (· < ·)
  after : ∀ k ∈ w.kept, w.after k
  full : w.overflowed = true → w.bound ≤ w.kept.length

/-- Where an element that was offered can be found. -/
def Covers (w : ScanWindow K) (k : K) : Prop :=
  ¬ w.after k ∨ k ∈ w.kept ∨ w.overflowed = true ∧ ∀ x ∈ w.kept, x < k

variable {w : ScanWindow K} {j k : K}

theorem sound_empty (cursor : Option K) (bound : ℕ) (h : 0 < bound) :
    (empty cursor bound).Sound := ⟨h, .nil, by simp [empty], by simp [empty]⟩

@[simp] theorem cursor_insert : (w.insert k).cursor = w.cursor := by
  unfold insert
  split_ifs <;> rfl

@[simp] theorem bound_insert : (w.insert k).bound = w.bound := by
  unfold insert
  split_ifs <;> rfl

/-! ## Lists in order -/

/-- The last element of a list in strict order is above the others. -/
theorem le_last_of_sorted {l : List K} (hsorted : l.Pairwise (· < ·)) {last : K}
    (hlast : l.getLast? = some last) : ∀ x ∈ l, x ≤ last := by
  obtain ⟨init, rfl⟩ := getLast?_eq_some_iff.mp hlast
  intro x hx
  rcases mem_append.mp hx with hinit | hself
  · exact le_of_lt ((pairwise_append.mp hsorted).2.2 x hinit last (mem_singleton_self _))
  · exact le_of_eq (mem_singleton.mp hself)

theorem pairwise_lt_orderedInsert {l : List K} (hsorted : l.Pairwise (· < ·)) (hk : k ∉ l) :
    (l.orderedInsert (· ≤ ·) k).Pairwise (· < ·) := by
  induction l with
  | nil => exact pairwise_singleton _ _
  | cons first rest ih =>
    obtain ⟨hhead, htail⟩ := pairwise_cons.mp hsorted
    rw [mem_cons, not_or] at hk
    rw [orderedInsert_cons]
    split_ifs with hle
    · refine pairwise_cons.mpr ⟨fun x hx => ?_, hsorted⟩
      have hlt : k < first := lt_of_le_of_ne hle hk.1
      rcases mem_cons.mp hx with rfl | hrest
      · exact hlt
      · exact hlt.trans (hhead x hrest)
    · refine pairwise_cons.mpr ⟨fun x hx => ?_, ih htail hk.2⟩
      rcases (mem_orderedInsert (· ≤ ·)).mp hx with rfl | hrest
      · exact lt_of_not_ge hle
      · exact hhead x hrest

/-- An element a sorted list loses with its last one lies past what is left. -/
theorem mem_dropLast_or_above {l : List K} (hsorted : l.Pairwise (· < ·)) (hk : k ∈ l) :
    k ∈ l.dropLast ∨ ∀ x ∈ l.dropLast, x < k := by
  have hne : l ≠ [] := ne_nil_of_mem hk
  rw [← dropLast_concat_getLast hne] at hsorted hk
  rcases mem_append.mp hk with hinit | hself
  · exact .inl hinit
  · refine .inr fun x hx => ?_
    rw [mem_singleton.mp hself]
    exact (pairwise_append.mp hsorted).2.2 x hx _ (mem_singleton_self _)

/-! ## What an insertion keeps -/

theorem Sound.markOverflowed (h : w.Sound) (hclosed : w.closedAt k) : w.markOverflowed.Sound :=
  ⟨h.bound_pos, h.sorted, h.after, fun _ => hclosed.1⟩

/-- A sound window that has overflowed kept something. -/
theorem Sound.kept_ne_nil (h : w.Sound) (ho : w.overflowed = true) : w.kept ≠ [] := by
  have hfull := h.full ho
  have hpos := h.bound_pos
  intro hnil
  rw [hnil] at hfull
  exact absurd hfull (by simp; omega)

/-- A range that begins where a window is closed may be left out. -/
theorem Sound.covers_markOverflowed (h : w.Sound) (hclosed : w.closedAt j) (hjk : j ≤ k) :
    w.markOverflowed.Covers k := by
  by_cases hk : k ∈ w.kept
  · exact .inr (.inl hk)
  · refine .inr (.inr ⟨rfl, fun x hx => ?_⟩)
    obtain ⟨last, hlast⟩ : ∃ last, w.kept.getLast? = some last :=
      ⟨_, getLast?_eq_some_getLast (ne_nil_of_mem hx)⟩
    have hle := (le_last_of_sorted h.sorted hlast x hx).trans ((hclosed.2 last hlast).trans hjk)
    exact lt_of_le_of_ne hle fun heq => hk (heq ▸ hx)

theorem Covers.markOverflowed (h : w.Covers k) : w.markOverflowed.Covers k := by
  rcases h with hbefore | hkept | ⟨_, habove⟩
  · exact .inl hbefore
  · exact .inr (.inl hkept)
  · exact .inr (.inr ⟨rfl, habove⟩)

/-- What an insertion does: nothing, or it turns the element away, or the element enters and the
last one may be lost. -/
theorem Sound.insert_cases (h : w.Sound) (k : K) :
    ((¬ w.after k ∨ k ∈ w.kept) ∧ w.insert k = w)
      ∨ (w.closedAt k ∧ w.insert k = w.markOverflowed)
      ∨ (w.after k ∧ k ∉ w.kept ∧ ¬ w.closedAt k ∧ ∃ kept overflowed,
          w.insert k = { w with kept, overflowed }
          ∧ kept.Sublist (w.kept.orderedInsert (· ≤ ·) k)
          ∧ (∀ x ∈ w.kept.orderedInsert (· ≤ ·) k, x ∈ kept ∨ overflowed = true ∧ ∀ y ∈ kept, y < x)
          ∧ (overflowed = true → w.bound ≤ kept.length)
          ∧ (w.overflowed = true → overflowed = true)) := by
  unfold ScanWindow.insert
  split_ifs with hafter hclosed hkept hlong
  · by_cases hkept : k ∈ w.kept
    · exact .inl ⟨.inr hkept, by simp [hkept]⟩
    · exact .inr (.inl ⟨hclosed, by simp [hkept, ScanWindow.markOverflowed]⟩)
  · exact .inl ⟨.inr hkept, rfl⟩
  · refine .inr (.inr ⟨hafter, hkept, hclosed, _, _, rfl, dropLast_sublist _,
      fun x hx => ?_, fun _ => ?_, fun _ => rfl⟩)
    · exact (mem_dropLast_or_above (pairwise_lt_orderedInsert h.sorted hkept) hx).imp_right (⟨rfl, ·⟩)
    · rw [length_dropLast]
      omega
  · refine .inr (.inr ⟨hafter, hkept, hclosed, _, _, rfl, .refl _, fun _ => .inl,
      fun ho => (h.full ho).trans ?_, id⟩)
    rw [orderedInsert_length]
    omega
  · exact .inl ⟨.inl hafter, rfl⟩

theorem Sound.insert (h : w.Sound) (k : K) : (w.insert k).Sound := by
  rcases h.insert_cases k with ⟨_, heq⟩ | ⟨hclosed, heq⟩
      | ⟨hafter, hkept, _, kept, _, heq, hsub, _, hfull, _⟩ <;> rw [heq]
  · exact h
  · exact h.markOverflowed hclosed
  · refine ⟨h.bound_pos, (pairwise_lt_orderedInsert h.sorted hkept).sublist hsub, ?_, hfull⟩
    intro x hx
    rcases (mem_orderedInsert (· ≤ ·)).mp (hsub.subset hx) with rfl | hold
    · exact hafter
    · exact h.after x hold

/-- What an insertion offers is covered. -/
theorem Sound.covers_insert_self (h : w.Sound) (k : K) : (w.insert k).Covers k := by
  rcases h.insert_cases k with ⟨hbefore | hkept, heq⟩ | ⟨hclosed, heq⟩
      | ⟨_, _, _, _, _, heq, _, hcovers, _⟩ <;> rw [heq]
  · exact .inl hbefore
  · exact .inr (.inl hkept)
  · exact h.covers_markOverflowed hclosed le_rfl
  · exact .inr (hcovers k ((mem_orderedInsert (· ≤ ·)).mpr (.inl rfl)))

/-- What was covered stays covered. -/
theorem Sound.covers_insert (h : w.Sound) (j : K) (hk : w.Covers k) : (w.insert j).Covers k := by
  rcases h.insert_cases j with ⟨_, heq⟩ | ⟨_, heq⟩
      | ⟨_, _, hopen, kept, _, heq, hsub, hcovers, _, hover⟩ <;> rw [heq]
  · exact hk
  · exact hk.markOverflowed
  · rcases hk with hbefore | hin | ⟨ho, habove⟩
    · exact .inl hbefore
    · exact .inr (hcovers k ((mem_orderedInsert (· ≤ ·)).mpr (.inr hin)))
    · -- a full window that is not closed takes only elements below its last one
      refine .inr (.inr ⟨hover ho, fun x hx => ?_⟩)
      have hjk : j < k := by
        by_contra hnot
        refine hopen ⟨h.full ho, fun last hlast => ?_⟩
        exact (habove last (mem_of_getLast? hlast)).le.trans (le_of_not_gt hnot)
      rcases (mem_orderedInsert (· ≤ ·)).mp (hsub.subset hx) with rfl | hold
      · exact hjk
      · exact habove x hold

/-! ## Many elements -/

/-- A later window of the same pass, offered only elements that satisfy `P`. -/
structure Extends (P : K → Prop) (w r : ScanWindow K) : Prop where
  sound : r.Sound
  cursor_eq : r.cursor = w.cursor
  bound_eq : r.bound = w.bound
  covers : ∀ k, w.Covers k → r.Covers k
  kept : ∀ k ∈ r.kept, k ∈ w.kept ∨ P k

variable {P Q : K → Prop} {r : ScanWindow K}

theorem Sound.extends (h : w.Sound) : Extends P w w := ⟨h, rfl, rfl, fun _ => id, fun _ => .inl⟩

theorem Extends.trans {m : ScanWindow K} (h : Extends P w m) (h' : Extends P m r) :
    Extends P w r where
  sound := h'.sound
  cursor_eq := h'.cursor_eq.trans h.cursor_eq
  bound_eq := h'.bound_eq.trans h.bound_eq
  covers := fun k hk => h'.covers k (h.covers k hk)
  kept := fun k hk => (h'.kept k hk).elim (h.kept k) .inr

theorem Extends.mono (h : Extends P w r) (hPQ : ∀ k, P k → Q k) : Extends Q w r :=
  { h with kept := fun k hk => (h.kept k hk).imp_right (hPQ k) }

theorem Sound.extends_markOverflowed (h : w.Sound) (hclosed : w.closedAt k) :
    Extends P w w.markOverflowed :=
  ⟨h.markOverflowed hclosed, rfl, rfl, fun _ => Covers.markOverflowed, fun _ => .inl⟩

theorem Sound.extends_insert (h : w.Sound) (hk : P k) : Extends P w (w.insert k) where
  sound := h.insert k
  cursor_eq := cursor_insert
  bound_eq := bound_insert
  covers := fun _ => h.covers_insert k
  kept := by
    intro x hx
    rcases h.insert_cases k with ⟨_, heq⟩ | ⟨_, heq⟩ | ⟨_, _, _, _, _, heq, hsub, _⟩ <;> rw [heq] at hx
    · exact .inl hx
    · exact .inl hx
    · rcases (mem_orderedInsert (· ≤ ·)).mp (hsub.subset hx) with rfl | hold
      · exact .inr hk
      · exact .inl hold

/-- A list of elements taken one after another: all of them are covered. -/
theorem Sound.foldl_insert (h : w.Sound) (l : List K) :
    Extends (· ∈ l) w (l.foldl ScanWindow.insert w)
      ∧ ∀ k ∈ l, (l.foldl ScanWindow.insert w).Covers k := by
  induction l generalizing w with
  | nil => exact ⟨h.extends, by simp⟩
  | cons first rest ih =>
    obtain ⟨hrest, hcovers⟩ := ih (h.insert first)
    have hfirst : Extends (· ∈ first :: rest) w (w.insert first) :=
      h.extends_insert mem_cons_self
    rw [foldl_cons]
    refine ⟨hfirst.trans (hrest.mono fun _ => mem_cons_of_mem _), fun k hk => ?_⟩
    rcases mem_cons.mp hk with rfl | hmem
    · exact hrest.covers _ (h.covers_insert_self k)
    · exact hcovers k hmem

end ScanWindow
