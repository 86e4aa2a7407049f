/-
# The spans and values a frame carries

A frame carries spans of the payload and presence bytes after a write.  Copying them over
the bytes before the write gives the bytes after it exactly when the spans cover every
byte that changed.  `DiffSpans` finds such spans for a transaction, and the walk over two
sorted value lists finds the values it changed.
-/
import ChunkDb.Mutation

open ByteBits SortedMap
open List hiding mem_merge

namespace ChunkDb

/-! ## Spans -/

theorem getElem?_copyInto (data : Bytes) (offset : ℕ) (bytes : Bytes)
    (h : offset + bytes.length ≤ data.length) (i : ℕ) :
    (copyInto data offset bytes)[i]?
      = if offset ≤ i ∧ i < offset + bytes.length then bytes[i - offset]? else data[i]? := by
  have htake : (data.take offset).length = offset := by
    rw [length_take]
    omega
  unfold copyInto
  by_cases hlow : i < offset
  · rw [if_neg (by omega), append_assoc, getElem?_append_left (by omega),
      getElem?_take_of_lt hlow]
  · by_cases hhigh : i < offset + bytes.length
    · rw [if_pos ⟨by omega, hhigh⟩, getElem?_append_left (by rw [length_append]; omega),
        getElem?_append_right (by omega), htake]
    · rw [if_neg (by omega), getElem?_append_right (by rw [length_append]; omega),
        getElem?_drop, length_append, htake]
      congr 1
      omega

/-- After spans that hold bytes of `target`, a byte is that of `target`, or no span has it. -/
theorem getElem?_copySpans_of_target {source target : Bytes} {spans : List (ℕ × Bytes)}
    (hlen : source.length = target.length)
    (hbytes : ∀ s ∈ spans, s.1 + s.2.length ≤ target.length
      ∧ s.2 = (target.drop s.1).take s.2.length) (i : ℕ) :
    (copySpans source spans)[i]? = target[i]?
      ∨ (copySpans source spans)[i]? = source[i]?
        ∧ ∀ s ∈ spans, ¬ (s.1 ≤ i ∧ i < s.1 + s.2.length) := by
  induction spans generalizing source with
  | nil => exact .inr ⟨rfl, by simp⟩
  | cons span spans ih =>
    obtain ⟨hend, hspan⟩ := hbytes span mem_cons_self
    have hinside : span.1 + span.2.length ≤ source.length := by omega
    rw [copySpans, foldl_cons, ← copySpans]
    rcases ih (by rw [length_copyInto _ _ _ hinside, hlen])
      (fun s hs => hbytes s (mem_cons_of_mem _ hs)) with htarget | ⟨hsame, hout⟩
    · exact .inl htarget
    · rw [hsame, getElem?_copyInto _ _ _ hinside]
      by_cases hat : span.1 ≤ i ∧ i < span.1 + span.2.length
      · refine .inl ?_
        rw [if_pos hat, hspan, getElem?_take_of_lt (by omega), getElem?_drop]
        congr 1
        omega
      · rw [if_neg hat]
        exact .inr ⟨rfl, forall_mem_cons.mpr ⟨hat, hout⟩⟩

/-- Spans that hold bytes of `target`, and all those in which `source` differs, turn one
into the other. -/
theorem copySpans_eq {source target : Bytes} {spans : List (ℕ × Bytes)}
    (hlen : source.length = target.length)
    (hbytes : ∀ s ∈ spans, s.1 + s.2.length ≤ target.length
      ∧ s.2 = (target.drop s.1).take s.2.length)
    (hcovers : ∀ i, source[i]? ≠ target[i]? → ∃ s ∈ spans, s.1 ≤ i ∧ i < s.1 + s.2.length) :
    copySpans source spans = target := by
  apply ext_getElem?
  intro i
  rcases getElem?_copySpans_of_target hlen hbytes i with htarget | ⟨hsame, hout⟩
  · exact htarget
  · rw [hsame]
    by_contra hne
    obtain ⟨s, hs, hcover⟩ := hcovers i hne
    exact hout s hs hcover

/-- Ranges of an array that hold every byte in which two versions of it differ. -/
structure Covers (before after : Bytes) (ranges : List (ℕ × ℕ)) : Prop where
  length_eq : before.length = after.length
  inside : ∀ r ∈ ranges, r.1 + r.2 ≤ after.length
  covers : ∀ i, before[i]? ≠ after[i]? → ∃ r ∈ ranges, r.1 ≤ i ∧ i < r.1 + r.2

/-- The spans of ranges of an array that starts at `base`. -/
def spansOf (bytes : Bytes) (base : ℕ) (ranges : List (ℕ × ℕ)) : List (ℕ × Bytes) :=
  ranges.map fun r => (base + r.1, (bytes.drop r.1).take r.2)

variable {before after payload payload' presence presence' : Bytes}
  {payloadRanges presenceRanges : List (ℕ × ℕ)}

theorem length_spansOf {ranges : List (ℕ × ℕ)} (h : Covers before after ranges) {r : ℕ × ℕ}
    (hr : r ∈ ranges) : ((after.drop r.1).take r.2).length = r.2 := by
  have := h.inside r hr
  rw [length_take, length_drop]
  omega

/-- The spans of two arrays, one after the other, hold bytes of the arrays. -/
theorem holds_spansOf (hpayload : Covers payload payload' payloadRanges)
    (hpresence : Covers presence presence' presenceRanges) :
    ∀ s ∈ spansOf payload' 0 payloadRanges ++ spansOf presence' payload'.length presenceRanges,
      s.1 + s.2.length ≤ (payload' ++ presence').length
        ∧ s.2 = ((payload' ++ presence').drop s.1).take s.2.length := by
  intro s hs
  rcases mem_append.mp hs with hs | hs
  · obtain ⟨r, hr, rfl⟩ := mem_map.mp hs
    have hin := hpayload.inside r hr
    simp only [length_spansOf hpayload hr, length_append, Nat.zero_add]
    refine ⟨by omega, ?_⟩
    rw [drop_append_of_le_length (by omega),
      take_append_of_le_length (by rw [length_drop]; omega)]
  · obtain ⟨r, hr, rfl⟩ := mem_map.mp hs
    have hin := hpresence.inside r hr
    simp only [length_spansOf hpresence hr, length_append]
    refine ⟨by omega, ?_⟩
    rw [← drop_drop, drop_left]

/-- They cover every byte in which the state differs. -/
theorem covers_spansOf (hpayload : Covers payload payload' payloadRanges)
    (hpresence : Covers presence presence' presenceRanges) (i : ℕ)
    (hne : (payload ++ presence)[i]? ≠ (payload' ++ presence')[i]?) :
    ∃ s ∈ spansOf payload' 0 payloadRanges ++ spansOf presence' payload'.length presenceRanges,
      s.1 ≤ i ∧ i < s.1 + s.2.length := by
  have hlenp := hpayload.length_eq
  by_cases hi : i < payload'.length
  · rw [getElem?_append_left (by omega), getElem?_append_left hi] at hne
    obtain ⟨r, hr, hlow, hhigh⟩ := hpayload.covers i hne
    refine ⟨_, mem_append_left _ (mem_map_of_mem hr), ?_⟩
    simp only [length_spansOf hpayload hr]
    omega
  · rw [getElem?_append_right (by omega), getElem?_append_right (by omega), hlenp] at hne
    obtain ⟨r, hr, hlow, hhigh⟩ := hpresence.covers _ hne
    refine ⟨_, mem_append_right _ (mem_map_of_mem hr), ?_⟩
    simp only [length_spansOf hpresence hr]
    omega

/-- Spans of two arrays, one after the other, turn the one state into the other. -/
theorem copySpans_spansOf (hpayload : Covers payload payload' payloadRanges)
    (hpresence : Covers presence presence' presenceRanges) :
    copySpans (payload ++ presence)
        (spansOf payload' 0 payloadRanges ++ spansOf presence' payload'.length presenceRanges)
      = payload' ++ presence' := by
  refine copySpans_eq ?_ (holds_spansOf hpayload hpresence) (covers_spansOf hpayload hpresence)
  rw [length_append, length_append, hpayload.length_eq, hpresence.length_eq]

namespace Covers

theorem refl (bytes : Bytes) : Covers bytes bytes [] :=
  ⟨rfl, by simp, fun _ h => absurd rfl h⟩

variable {before : Bytes}

theorem whole {after : Bytes} (h : before.length = after.length) :
    Covers before after [(0, after.length)] := by
  refine ⟨h, by simp, fun i hne => ⟨_, mem_singleton_self _, Nat.zero_le _, ?_⟩⟩
  by_contra hi
  rw [getElem?_eq_none (by omega), getElem?_eq_none (by omega)] at hne
  exact hne rfl

/-- One byte that may differ. -/
theorem presenceByte (before : Bytes) (block : ℕ) (value : Bool) (h : block / 8 < before.length) :
    Covers before (putBit before block value) [(block / 8, 1)] := by
  refine ⟨by simp, ?_, fun i hne => ⟨_, mem_singleton_self _, ?_⟩⟩
  · intro r hr
    obtain rfl := mem_singleton.mp hr
    rw [length_putBit]
    omega
  · by_contra hi
    have hother : block / 8 ≠ i := by
      rintro rfl
      simp at hi
    exact hne (by simp [putBit, hother])

/-- A byte after ranges were copied in is the one before, or one of a range. -/
theorem getElem?_copySpans (data : Bytes) (ranges : List (ℕ × Bytes))
    (hinside : ∀ r ∈ ranges, r.1 + r.2.length ≤ data.length) (i : ℕ) :
    (copySpans data ranges)[i]? = data[i]?
      ∨ ∃ r ∈ ranges, r.1 ≤ i ∧ i < r.1 + r.2.length ∧ (copySpans data ranges)[i]? = r.2[i - r.1]? := by
  induction ranges generalizing data with
  | nil => exact .inl rfl
  | cons range ranges ih =>
    have hrange := hinside range mem_cons_self
    have hlen := length_copyInto _ _ _ hrange
    rw [copySpans, foldl_cons, ← copySpans]
    rcases ih (copyInto data range.1 range.2)
        (fun r hr => by rw [hlen]; exact hinside r (mem_cons_of_mem _ hr)) with hsame | hcopied
    · rw [hsame, getElem?_copyInto _ _ _ hrange]
      split
      · rename_i hcover
        exact .inr ⟨range, mem_cons_self, hcover.1, hcover.2, rfl⟩
      · exact .inl rfl
    · obtain ⟨r, hr, hcover⟩ := hcopied
      exact .inr ⟨r, mem_cons_of_mem _ hr, hcover⟩

/-- Ranges copied into an array: those that differ from it hold every byte that changed. -/
theorem ranges {ranges : List (ℕ × Bytes)}
    (hinside : ∀ r ∈ ranges, r.1 + r.2.length ≤ before.length) :
    Covers before (copySpans before ranges)
      ((changedRanges before ranges).map fun r => (r.1, r.2.length)) := by
  have hlen := length_copySpans before ranges hinside
  refine ⟨hlen.symm, ?_, fun i hne => ?_⟩
  · intro r hr
    obtain ⟨range, hrange, rfl⟩ := mem_map.mp hr
    rw [hlen]
    exact hinside range (mem_filter.mp hrange).1
  · rcases getElem?_copySpans before ranges hinside i with hsame | ⟨r, hr, hlow, hhigh, hcopied⟩
    · exact absurd hsame.symm hne
    · refine ⟨_, mem_map_of_mem (mem_filter.mpr ⟨hr, ?_⟩), hlow, hhigh⟩
      rw [decide_eq_true_eq]
      intro hunchanged
      apply hne
      rw [hcopied, ← hunchanged, getElem?_take_of_lt (by omega), getElem?_drop]
      congr 1
      omega

/-! ### Differences -/

/-- What the loop of `AppendDiffSpans` keeps: its ranges ascend without meeting, lie below the
position, and hold every byte below it that differs. -/
structure DiffInvariant (before after : Bytes) (position : ℕ) (ranges : List (ℕ × ℕ)) : Prop where
  ordered : ranges.Pairwise fun r r' => r.2 < r'.1
  below : ∀ r ∈ ranges, r.1 < r.2 ∧ r.2 ≤ position
  holds : ∀ i < position, before.getD i 0 ≠ after.getD i 0 → ∃ r ∈ ranges, r.1 ≤ i ∧ i < r.2

namespace DiffInvariant

variable {before after : Bytes} {position : ℕ} {ranges : List (ℕ × ℕ)}

theorem same (h : DiffInvariant before after position ranges)
    (hsame : before.getD position 0 = after.getD position 0) :
    DiffInvariant before after (position + 1) ranges := by
  refine ⟨h.ordered, fun r hr => ?_, fun i hi hne => h.holds i (lt_of_le_of_ne (by omega) ?_) hne⟩
  · have := h.below r hr
    omega
  · rintro rfl
    exact hne hsame

theorem grow {first last : ℕ}
    (h : DiffInvariant before after position (ranges ++ [(first, last)])) :
    DiffInvariant before after (position + 1) (ranges ++ [(first, position + 1)]) := by
  have hopen := h.below (first, last) (by simp)
  obtain ⟨hordered, -, hlast⟩ := pairwise_append.mp h.ordered
  refine ⟨pairwise_append.mpr ⟨hordered, pairwise_singleton _ _, ?_⟩, fun r hr => ?_,
    fun i hi hne => ?_⟩
  · intro r hr r' hr'
    obtain rfl := mem_singleton.mp hr'
    exact hlast r hr (first, last) (mem_singleton_self _)
  · rcases mem_append.mp hr with hr | hr
    · have := h.below r (mem_append_left _ hr)
      omega
    · obtain rfl := mem_singleton.mp hr
      dsimp only at hopen ⊢
      omega
  · by_cases hlast : first ≤ i
    · exact ⟨_, mem_append_right _ (mem_singleton_self _), hlast, hi⟩
    · dsimp only at hopen
      obtain ⟨r, hr, hcover⟩ := h.holds i (by omega) hne
      rcases mem_append.mp hr with hr | hr
      · exact ⟨r, mem_append_left _ hr, hcover⟩
      · obtain rfl := mem_singleton.mp hr
        exact absurd hcover.1 hlast

/-- A new range starts, past the ones there are. -/
theorem push (h : DiffInvariant before after position ranges)
    (hpast : ∀ r ∈ ranges, r.2 < position) :
    DiffInvariant before after (position + 1) (ranges ++ [(position, position + 1)]) := by
  refine ⟨pairwise_append.mpr ⟨h.ordered, pairwise_singleton _ _, ?_⟩, fun r hr => ?_,
    fun i hi hne => ?_⟩
  · intro r hr r' hr'
    obtain rfl := mem_singleton.mp hr'
    exact hpast r hr
  · rcases mem_append.mp hr with hr | hr
    · have := h.below r hr
      omega
    · obtain rfl := mem_singleton.mp hr
      dsimp only
      omega
  · by_cases hlast : i = position
    · exact ⟨_, mem_append_right _ (mem_singleton_self _), hlast.ge, hi⟩
    · obtain ⟨r, hr, hcover⟩ := h.holds i (by omega) hne
      exact ⟨r, mem_append_left _ hr, hcover⟩

/-- One round of the loop; there is an open range as soon as there is a closed one. -/
theorem step {ranges : List (ℕ × ℕ) × Option (ℕ × ℕ)} (hopen : ranges.2 = none → ranges.1 = [])
    (h : DiffInvariant before after position (ranges.1 ++ ranges.2.toList)) :
    ((diffStep before after ranges position).2 = none →
        (diffStep before after ranges position).1 = []) ∧
      DiffInvariant before after (position + 1)
        ((diffStep before after ranges position).1
          ++ (diffStep before after ranges position).2.toList) := by
  obtain ⟨closed, current⟩ := ranges
  unfold diffStep
  split
  · rename_i hsame
    exact ⟨hopen, h.same hsame⟩
  · cases current with
    | none =>
      rw [Option.toList_none, append_nil] at h
      refine ⟨nofun, h.push fun r hr => ?_⟩
      have hempty : closed = [] := hopen rfl
      rw [hempty] at hr
      cases hr
    | some range =>
      dsimp only
      split
      · exact ⟨nofun, h.grow⟩
      · rename_i hgap
        refine ⟨nofun, h.push fun r hr => ?_⟩
        have hrange := h.below range (by simp)
        rcases mem_append.mp hr with hr | hr
        · have := (pairwise_append.mp h.ordered).2.2 r hr range (mem_singleton_self _)
          omega
        · obtain rfl := mem_singleton.mp hr
          omega

theorem range (before after : Bytes) (count : ℕ) :
    DiffInvariant before after count
      (((List.range count).foldl (diffStep before after) ([], none)).1
        ++ ((List.range count).foldl (diffStep before after) ([], none)).2.toList) := by
  suffices h : (((List.range count).foldl (diffStep before after) ([], none)).2 = none →
      ((List.range count).foldl (diffStep before after) ([], none)).1 = []) ∧ _ from h.2
  induction count with
  | zero => exact ⟨fun _ => rfl, by simp, by simp, fun i hi => absurd hi (Nat.not_lt_zero i)⟩
  | succ count ih =>
    rw [range_succ, foldl_append, foldl_cons, foldl_nil]
    exact step ih.1 ih.2

end DiffInvariant

/-- The ranges a transaction logs hold every byte that changed. -/
theorem diff {after : Bytes} (hlen : before.length = after.length) :
    Covers before after ((diffRanges before after).map fun r => (r.1, r.2 - r.1)) := by
  obtain ⟨-, hbelow, hholds⟩ := DiffInvariant.range before after after.length
  refine ⟨hlen, fun r hr => ?_, fun i hne => ?_⟩
  · obtain ⟨range, hrange, rfl⟩ := mem_map.mp hr
    have := hbelow range hrange
    dsimp only
    omega
  · have hi : i < after.length := by
      by_contra hi
      rw [getElem?_eq_none (by omega), getElem?_eq_none (by omega)] at hne
      exact hne rfl
    have hgetD : before.getD i 0 ≠ after.getD i 0 := by
      rw [getElem?_eq_getElem hi, getElem?_eq_getElem (by omega)] at hne
      rw [getD_eq_getElem _ _ hi, getD_eq_getElem _ _ (by omega)]
      exact fun heq => hne (congrArg some heq)
    obtain ⟨r, hr, hlow, hhigh⟩ := hholds i hi hgetD
    refine ⟨_, mem_map_of_mem hr, hlow, ?_⟩
    dsimp only
    omega

end Covers

/-- Ranges, as first and last-plus-one, that ascend without meeting inside an array, none of
them empty, such that every byte in which two versions of the array differ is in one of them. -/
structure ExactRanges (before after : Bytes) (ranges : List (ℕ × ℕ)) : Prop where
  ascending : ranges.Pairwise fun r r' => r.2 < r'.1
  inside : ∀ r ∈ ranges, r.1 < r.2 ∧ r.2 ≤ after.length
  unique : ∀ i, before[i]? ≠ after[i]? → ∃! r, r ∈ ranges ∧ r.1 ≤ i ∧ i < r.2

/-- Two ranges that ascend do not have a byte in common. -/
theorem eq_of_ascending {ranges : List (ℕ × ℕ)} (h : ranges.Pairwise fun r r' => r.2 < r'.1)
    {r r' : ℕ × ℕ} (hr : r ∈ ranges) (hr' : r' ∈ ranges) {i : ℕ} (hi : r.1 ≤ i ∧ i < r.2)
    (hi' : r'.1 ≤ i ∧ i < r'.2) : r = r' := by
  induction h with
  | nil => cases hr
  | cons hfirst _ ih =>
    rcases mem_cons.mp hr with rfl | hrest
    · rcases mem_cons.mp hr' with rfl | hrest'
      · rfl
      · have := hfirst r' hrest'
        omega
    · rcases mem_cons.mp hr' with rfl | hrest'
      · have := hfirst r hrest
        omega
      · exact ih hrest hrest'

/-- The ranges of a difference. -/
theorem exactRanges_diff (hlen : before.length = after.length) :
    ExactRanges before after (diffRanges before after) := by
  obtain ⟨hordered, hbelow, -⟩ := Covers.DiffInvariant.range before after after.length
  refine ⟨hordered, hbelow, fun i hne => ?_⟩
  obtain ⟨_, hmem, hlow, hhigh⟩ := (Covers.diff hlen).covers i hne
  obtain ⟨r, hr, rfl⟩ := mem_map.mp hmem
  have hi : r.1 ≤ i ∧ i < r.2 := by
    dsimp only at hlow hhigh
    omega
  exact ⟨r, ⟨hr, hi⟩, fun r' hr' => eq_of_ascending hordered hr'.1 hr hr'.2 hi⟩

/-- A range is logged exactly when the arrays differ. -/
theorem diffRanges_eq_nil_iff (hlen : before.length = after.length) :
    diffRanges before after = [] ↔ before = after := by
  constructor
  · intro hnil
    apply ext_getElem?
    intro i
    by_contra hne
    obtain ⟨r, ⟨hr, -⟩, -⟩ := (exactRanges_diff hlen).unique i hne
    rw [hnil] at hr
    cases hr
  · rintro rfl
    have hsame : ∀ rounds : List ℕ, rounds.foldl (diffStep before before) ([], none) = ([], none) := by
      intro rounds
      induction rounds with
      | nil => rfl
      | cons i rounds ih => rwa [foldl_cons, diffStep, if_pos rfl]
    rw [diffRanges, hsame]
    rfl

/-! ## Changes of values -/

section VarDiff

variable {olds news : List (VarKey × Bytes)}

/-- The loop of `AppendVarDiff` finds what was removed, and what is new or changed. -/
theorem mem_varDiffLoop (fuel : ℕ) (holds : KeysAscending olds) (hnews : KeysAscending news)
    (hfuel : olds.length + news.length ≤ fuel) (k : VarKey) (c : Option Bytes) :
    (k, c) ∈ varDiffLoop fuel olds news ↔
      (∃ v, c = some v ∧ (k, v) ∈ news ∧ (k, v) ∉ olds)
        ∨ (c = none ∧ (∃ v, (k, v) ∈ olds) ∧ ∀ v, (k, v) ∉ news) := by
  induction fuel generalizing olds news with
  | zero =>
    obtain rfl := eq_nil_of_length_eq_zero (l := olds) (by omega)
    obtain rfl := eq_nil_of_length_eq_zero (l := news) (by omega)
    simp [varDiffLoop]
  | succ fuel ih =>
    cases olds with
    | nil =>
      cases news with
      | nil => simp [varDiffLoop]
      | cons new news =>
        have hn := (pairwise_cons.mp hnews)
        have := @ih [] news holds hn.2 (by simp at hfuel ⊢; omega)
        rw [varDiffLoop]
        grind
    | cons old olds =>
      have ho := (pairwise_cons.mp holds)
      cases news with
      | nil =>
        have := @ih olds [] ho.2 hnews (by simp at hfuel ⊢; omega)
        rw [varDiffLoop]
        grind
      | cons new news =>
        have hn := (pairwise_cons.mp hnews)
        rw [varDiffLoop]
        rcases lt_trichotomy old.1 new.1 with hlt | heq | hgt
        · have := ih ho.2 hnews (by simp at hfuel ⊢; omega)
          have hafter : ∀ e ∈ new :: news, old.1 < e.1 := by
            rintro e (_ | ⟨_, he⟩)
            · exact hlt
            · exact hlt.trans (hn.1 e he)
          simp only [if_pos hlt]
          grind
        · have := ih ho.2 hn.2 (by simp at hfuel ⊢; omega)
          simp only [if_neg heq.not_lt, if_neg heq.not_gt]
          grind
        · have := ih holds hn.2 (by simp at hfuel ⊢; omega)
          have hafter : ∀ e ∈ old :: olds, new.1 < e.1 := by
            rintro e (_ | ⟨_, he⟩)
            · exact hgt
            · exact hgt.trans (ho.1 e he)
          simp only [if_neg hgt.not_gt, if_pos hgt]
          grind

theorem keysAscending_varDiffLoop (fuel : ℕ) (holds : KeysAscending olds)
    (hnews : KeysAscending news) (hfuel : olds.length + news.length ≤ fuel) :
    KeysAscending (varDiffLoop fuel olds news) := by
  -- a key below all keys of both lists is below all keys of the result
  have hbelow : ∀ (fuel : ℕ) (olds news : List (VarKey × Bytes)) (k : VarKey),
      KeysAscending olds → KeysAscending news → olds.length + news.length ≤ fuel →
      (∀ e ∈ olds, k < e.1) → (∀ e ∈ news, k < e.1) →
      ∀ e ∈ varDiffLoop fuel olds news, k < e.1 := by
    rintro fuel olds news k ho hn hfuel holds hnews ⟨key, c⟩ he
    rcases (mem_varDiffLoop fuel ho hn hfuel key c).mp he with ⟨v, _, hv, _⟩ | ⟨_, ⟨v, hv⟩, _⟩
    · exact hnews (key, v) hv
    · exact holds (key, v) hv
  induction fuel generalizing olds news with
  | zero => exact List.Pairwise.nil
  | succ fuel ih =>
    cases olds with
    | nil =>
      cases news with
      | nil => exact List.Pairwise.nil
      | cons new news =>
        rw [varDiffLoop]
        have hn := pairwise_cons.mp hnews
        have hsize : ([] : List (VarKey × Bytes)).length + news.length ≤ fuel := by
          simp at hfuel ⊢; omega
        exact pairwise_cons.mpr
          ⟨hbelow fuel [] news new.1 holds hn.2 hsize (by simp) hn.1, ih holds hn.2 hsize⟩
    | cons old olds =>
      have ho := pairwise_cons.mp holds
      cases news with
      | nil =>
        rw [varDiffLoop]
        have hsize : olds.length + ([] : List (VarKey × Bytes)).length ≤ fuel := by
          simp at hfuel ⊢; omega
        exact pairwise_cons.mpr
          ⟨hbelow fuel olds [] old.1 ho.2 hnews hsize ho.1 (by simp), ih ho.2 hnews hsize⟩
      | cons new news =>
        have hn := pairwise_cons.mp hnews
        rw [length_cons, length_cons] at hfuel
        rw [varDiffLoop]
        rcases lt_trichotomy old.1 new.1 with hlt | heq | hgt
        · have hsize : olds.length + (new :: news).length ≤ fuel := by
            rw [length_cons]; omega
          simp only [if_pos hlt]
          refine pairwise_cons.mpr
            ⟨hbelow fuel olds (new :: news) old.1 ho.2 hnews hsize ho.1 ?_, ih ho.2 hnews hsize⟩
          rintro e (_ | ⟨_, he⟩)
          · exact hlt
          · exact hlt.trans (hn.1 e he)
        · have hsize : olds.length + news.length ≤ fuel := by omega
          simp only [if_neg heq.not_lt, if_neg heq.not_gt]
          split
          · exact ih ho.2 hn.2 hsize
          · exact pairwise_cons.mpr
              ⟨hbelow fuel olds news new.1 ho.2 hn.2 hsize (by rw [← heq]; exact ho.1) hn.1,
                ih ho.2 hn.2 hsize⟩
        · have hsize : (old :: olds).length + news.length ≤ fuel := by
            rw [length_cons]; omega
          simp only [if_neg hgt.not_gt, if_pos hgt]
          refine pairwise_cons.mpr
            ⟨hbelow fuel (old :: olds) news new.1 holds hn.2 hsize ?_ hn.1, ih holds hn.2 hsize⟩
          rintro e (_ | ⟨_, he⟩)
          · exact hgt
          · exact hgt.trans (ho.1 e he)

end VarDiff

theorem keysAscending_varDiff (before after : ChunkVars) : KeysAscending (varDiff before after) :=
  keysAscending_varDiffLoop _ before.ascending after.ascending le_rfl

/-- A difference is a key whose value changed, with the value it has now. -/
theorem mem_varDiff {before after : ChunkVars} {k : VarKey} {c : Option Bytes} :
    (k, c) ∈ varDiff before after ↔ after.find k = c ∧ before.find k ≠ c := by
  rw [varDiff, mem_varDiffLoop _ before.ascending after.ascending le_rfl]
  simp only [← find_eq_some_iff]
  cases c with
  | some v => simp
  | none =>
    simp only [reduceCtorEq, false_and, exists_false, false_or, true_and]
    rw [← Option.ne_none_iff_exists', ← Option.eq_none_iff_forall_ne_some]
    exact and_comm

/-- The differences turn the values before into those after. -/
theorem merge_varDiff (before after : ChunkVars) :
    SortedMap.merge before (varDiff before after) (keysAscending_varDiff before after) = after := by
  apply ext_mem
  rintro ⟨k, v⟩
  rw [mem_merge, mem_varDiff, ← find_eq_some_iff, ← find_eq_some_iff]
  constructor
  · rintro (h | ⟨hnot, hbefore⟩)
    · exact h.1
    · by_contra hne
      apply hnot
      rw [mem_map]
      exact ⟨(k, after.find k), mem_varDiff.mpr ⟨rfl, by rw [hbefore]; exact fun h => hne h.symm⟩, rfl⟩
  · intro hafter
    by_cases hbefore : before.find k = some v
    · refine .inr ⟨?_, hbefore⟩
      rw [mem_map]
      rintro ⟨⟨k', c⟩, hmem, rfl⟩
      obtain ⟨rfl, hne⟩ := mem_varDiff.mp hmem
      exact hne (hbefore.trans hafter.symm)
    · exact .inl ⟨hafter, hbefore⟩

/-- A change is logged exactly when the values differ. -/
theorem varDiff_eq_nil_iff (before after : ChunkVars) : varDiff before after = [] ↔ before = after := by
  constructor
  · intro hnil
    have hmerge := merge_varDiff before after
    simp only [hnil] at hmerge
    exact hmerge
  · rintro rfl
    refine eq_nil_iff_forall_not_mem.mpr ?_
    rintro ⟨key, value⟩ hmem
    obtain ⟨heq, hne⟩ := mem_varDiff.mp hmem
    exact hne heq

end ChunkDb
