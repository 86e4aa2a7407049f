/-
# Block writes in a private copy

A transaction writes blocks into its own copy of a chunk and edits the arrays in place
(`SetBlockInState`, `UnsetBlockInState`).  On the live chunk the same write works out the bytes
it touches aside and copies them back (`WriteBlockColumnsLocked`, `WriteBlockBitsLocked`).  The
arrays of a layout do not overlap, so both refuse the same writes and end in the same state.
-/
import ChunkDb.Feed.ChunkForm

open ByteBits SortedMap List Option

namespace ChunkDb

open BlockEdit BlockWrite

/-! ## The private path -/

/-- One round of the loop over the edits in `ApplyBlockWriteToState`. -/
def BlockEdit.apply (block : ℕ) (payload : Bytes) (edit : BlockEdit) : Bytes :=
  let payload := writeValueBits payload (edit.fixed.values * 8 + block * edit.fixed.width)
    edit.value edit.fixed.width
  match edit.fixed.validity with
  | none => payload
  | some validity =>
    payload.modify (validity + block / 8) fun byte => putByteBit byte (block % 8) (!edit.null)

/-- `ApplyBlockWriteToState`. -/
def Writer.applyBlockWriteToState (writer : Writer) (block : ℕ) (write : BlockWrite)
    (present : Bool) (state : ChunkState) : Fallible ChunkState := do
  let changes := write.varChanges.filter fun change => state.vars.find change.1 ≠ change.2
  let update : VarUpdate := ⟨changes.mergeSort fun a b => a.1 ≤ b.1, none⟩
  writer.requireVarWrite state.vars update
  let payload := write.edits.foldl (BlockEdit.apply block) state.payload
  let presence := putBit state.presence block present
  let vars ← updateVars state.vars update
  return ⟨payload, presence, vars⟩

/-- `SetBlockInState`. -/
def Writer.setBlockInState (writer : Writer) (block : ℕ) (values : List ColumnAssignment)
    (state : ChunkState) : Fallible ChunkState := do
  let write ← BlockWrite.prepareSet writer.layout block values
  if getBit state.presence block then writer.applyBlockWriteToState block write true state
  else
    let write ← BlockWrite.addNewColumns writer.layout block write
    writer.applyBlockWriteToState block write true state

/-- `UnsetBlockInState`. -/
def Writer.unsetBlockInState (writer : Writer) (block : ℕ) (state : ChunkState) :
    Fallible ChunkState :=
  if writer.layout.bitStringBlocks then
    .ok { state with
      payload := writeBits state.payload (block * writer.layout.blockBits)
        (List.replicate writer.layout.blockBits '0')
      presence := putBit state.presence block false }
  else writer.applyBlockWriteToState block (prepareUnset writer.layout block) false state

theorem inWindow_writeBits (digits : List Char) :
    InWindow digits.length fun data j => writeBits data j digits := by
  refine ⟨fun before window after j h => ?_, fun window j _ => length_writeBits _ _ _⟩
  unfold writeBits
  simp only [Nat.add_assoc]
  refine foldl_putBit_window before window after (fun digit : Char × ℕ => j + digit.2)
    (fun digit => digit.1 == '1') _ fun digit hdigit => ?_
  have := snd_lt_of_mem_zipIdx hdigit
  omega

/-! ## Ranges that do not overlap -/

/-- Where ranges that do not overlap were copied in, they stand. -/
theorem copySpans_holds {data : Bytes} {ranges : List (ℕ × Bytes)}
    (hinside : ∀ r ∈ ranges, r.1 + r.2.length ≤ data.length)
    (hapart : ranges.Pairwise fun r s => r.1 + r.2.length ≤ s.1 ∨ s.1 + s.2.length ≤ r.1) :
    ∀ r ∈ ranges, ((copySpans data ranges).drop r.1).take r.2.length = r.2 := by
  induction ranges generalizing data with
  | nil => simp
  | cons range ranges ih =>
    obtain ⟨hfirst, hapart⟩ := pairwise_cons.mp hapart
    have hrange := hinside range mem_cons_self
    have hrest : ∀ r ∈ ranges, r.1 + r.2.length ≤ (copyInto data range.1 range.2).length := by
      rw [length_copyInto _ _ _ hrange]
      exact fun r hr => hinside r (mem_cons_of_mem _ hr)
    rw [copySpans, foldl_cons, ← copySpans]
    rintro r (_ | ⟨_, hr⟩)
    · apply ext_getElem?
      intro i
      rw [getElem?_take, getElem?_drop]
      split
      · rcases Covers.getElem?_copySpans _ _ hrest (range.1 + i) with hsame | ⟨s, hs, hlow, hhigh, _⟩
        · rw [hsame, getElem?_copyInto _ _ _ hrange, if_pos (by omega), Nat.add_sub_cancel_left]
        · have := hfirst s hs
          omega
      · rw [getElem?_eq_none (by omega)]
    · exact ih hrest hapart r hr

theorem Covers.eq_of_nil {before after : Bytes} (h : Covers before after []) : before = after := by
  apply ext_getElem?
  intro i
  by_contra hne
  obtain ⟨r, hr, _⟩ := h.covers i hne
  exact absurd hr not_mem_nil

theorem changedRanges_eq_nil_iff {data : Bytes} {ranges : List (ℕ × Bytes)}
    (hinside : ∀ r ∈ ranges, r.1 + r.2.length ≤ data.length)
    (hapart : ranges.Pairwise fun r s => r.1 + r.2.length ≤ s.1 ∨ s.1 + s.2.length ≤ r.1) :
    changedRanges data ranges = [] ↔ copySpans data ranges = data := by
  constructor
  · intro hnil
    have hcovers := Covers.ranges hinside
    rw [hnil] at hcovers
    exact hcovers.eq_of_nil.symm
  · intro hsame
    rw [changedRanges, filter_eq_nil_iff]
    intro r hr
    have := copySpans_holds hinside hapart r hr
    rw [hsame] at this
    simp [this]

theorem presenceSpan_eq_nil_iff (layout : ChunkLayout) {block : ℕ} {presence : Bytes}
    (present : Bool) (hblock : block / 8 < presence.length) :
    presenceSpan layout block presence (putBit presence block present) = []
      ↔ putBit presence block present = presence := by
  constructor
  · intro hnil
    obtain ⟨ranges, hcovers, hrecords⟩ := logsChange_presenceSpan layout block presence present hblock
    rw [hnil, eq_comm, map_eq_nil_iff, spansOf, map_eq_nil_iff] at hrecords
    subst hrecords
    exact hcovers.eq_of_nil.symm
  · intro hsame
    rw [hsame]
    exact if_pos rfl

/-! ## The edits of a write -/

/-- The arrays of two columns do not overlap. -/
def FixedColumn.Apart (blockCount : ℕ) (f g : FixedColumn) : Prop :=
  f.finish blockCount ≤ g.values ∨ g.finish blockCount ≤ f.values

section Edits

variable {layout : ChunkLayout} {block : ℕ} {payload : Bytes} {edit : BlockEdit}
  (hfixed : edit.fixed ∈ layout.fixed) (hblock : block < layout.blockCount)
  (hpayload : payload.length = layout.payloadBytes)

include hfixed hblock

/-- The validity bits of a column come after its values. -/
theorem BlockEdit.validity_eq : ∀ validity ∈ edit.fixed.validity,
    edit.fixed.values + bytesForBits (layout.blockCount * edit.fixed.width) = validity
      ∧ validity + block / 8 < edit.fixed.finish layout.blockCount := by
  intro validity hvalidity
  have hvalues := (placeColumns_adjoining _ _ _ layout.placed).validity _ hfixed validity hvalidity
  have hcount := le_bytesForBits layout.blockCount
  refine ⟨hvalues.symm, ?_⟩
  rw [FixedColumn.finish, ← hvalues, isSome_of_mem hvalidity, if_pos rfl]
  omega

include hpayload

theorem BlockEdit.ranges_within : ∀ r ∈ edit.ranges block payload,
    edit.fixed.values ≤ r.1 ∧ r.1 + r.2.length ≤ edit.fixed.finish layout.blockCount := by
  obtain ⟨first, value, hranges, hlow, hhigh, _⟩ := ranges_eq hfixed hblock hpayload
  rw [hranges]
  rintro r (_ | ⟨_, hr⟩)
  · exact ⟨hlow, hhigh.trans (Nat.le_add_right _ _)⟩
  · obtain ⟨validity, hmem, rfl⟩ := mem_map.mp hr
    have := validity_eq hfixed hblock validity (mem_toList.mp hmem)
    rw [length_singleton]
    omega

theorem BlockEdit.ranges_apart : (edit.ranges block payload).Pairwise fun r s =>
    r.1 + r.2.length ≤ s.1 ∨ s.1 + s.2.length ≤ r.1 := by
  obtain ⟨first, value, hranges, _, hhigh, _⟩ := ranges_eq hfixed hblock hpayload
  rw [hranges]
  cases hv : edit.fixed.validity with
  | none => exact pairwise_singleton _ _
  | some validity =>
    have hvalues := (validity_eq hfixed hblock validity hv).1
    exact pairwise_pair.mpr (.inl ((hhigh.trans_eq hvalues).trans (Nat.le_add_right _ _)))

/-- The ranges of an edit, copied in, are the edit made in place. -/
theorem BlockEdit.copySpans_ranges :
    copySpans payload (edit.ranges block payload) = edit.apply block payload := by
  have hinside := ranges_inside hfixed hblock hpayload
  obtain ⟨first, value, hranges, _, hhigh, hcopy⟩ := ranges_eq hfixed hblock hpayload
  rw [hranges] at hinside ⊢
  rw [copySpans, foldl_cons, apply, ← hcopy]
  have hfirst : first + value.length ≤ payload.length := hinside _ mem_cons_self
  cases hv : edit.fixed.validity with
  | none => rfl
  | some validity =>
    rw [hv] at hinside
    have hlt : validity + block / 8 < (copyInto payload first value).length := by
      rw [length_copyInto _ _ _ hfirst]
      exact hinside _ (mem_cons_of_mem _ mem_cons_self)
    -- the value ends before the validity byte
    have hbyte : (copyInto payload first value)[validity + block / 8]?
        = payload[validity + block / 8]? := by
      have := (validity_eq hfixed hblock validity hv).1
      rw [getElem?_copyInto _ _ _ hfirst, if_neg (by omega)]
    rw [getElem?_eq_getElem hlt] at hbyte
    simp only [toList_some, map_singleton, foldl_cons, foldl_nil]
    rw [modify_eq_take_cons_drop hlt, getD_eq_getElem?_getD, ← hbyte, copyInto]
    simp

/-- An edit touches no byte outside the arrays of its column, -/
theorem BlockEdit.getElem?_apply {i : ℕ}
    (hi : i < edit.fixed.values ∨ edit.fixed.finish layout.blockCount ≤ i) :
    (edit.apply block payload)[i]? = payload[i]? := by
  rw [← copySpans_ranges hfixed hblock hpayload]
  rcases Covers.getElem?_copySpans _ _ (ranges_inside hfixed hblock hpayload) i with
    hsame | ⟨r, hr, hlow, hhigh, _⟩
  · exact hsame
  · have := ranges_within hfixed hblock hpayload r hr
    omega

omit hpayload in
/-- and reads none. -/
theorem BlockEdit.ranges_congr {payload' : Bytes}
    (h : ∀ i, edit.fixed.values ≤ i → i < edit.fixed.finish layout.blockCount →
      payload[i]? = payload'[i]?) : edit.ranges block payload = edit.ranges block payload' := by
  obtain ⟨column, _, hplaced⟩ := layout.fixed_bounds hfixed
  have hwidth := hplaced.width_ne
  have hbits := value_bits_le (show _ ≤ edit.fixed.finish layout.blockCount from
    Nat.le_add_right _ _) hblock
  set bit := edit.fixed.values * 8 + block * edit.fixed.width with hbit
  have hslice : (payload.drop (bit / 8)).take ((bit + edit.fixed.width - 1) / 8 - bit / 8 + 1)
      = (payload'.drop (bit / 8)).take ((bit + edit.fixed.width - 1) / 8 - bit / 8 + 1) := by
    apply ext_getElem?
    intro i
    simp only [getElem?_take, getElem?_drop]
    split
    · exact h _ (by omega) (by omega)
    · rfl
  unfold ranges
  simp only [← hbit, hslice, List.cons.injEq, true_and]
  refine map_congr_left fun validity hmem => ?_
  have := validity_eq hfixed hblock validity (mem_toList.mp hmem)
  rw [getD_eq_getElem?_getD, getD_eq_getElem?_getD, h _ (by omega) this.2]

end Edits

/-- Edits of arrays that do not overlap, one after the other in place, are all their ranges
copied in. -/
theorem foldl_apply_eq {layout : ChunkLayout} {block : ℕ} (hblock : block < layout.blockCount)
    {edits : List BlockEdit} (hfixed : ∀ edit ∈ edits, edit.fixed ∈ layout.fixed)
    (hapart : edits.Pairwise fun e f => e.fixed.Apart layout.blockCount f.fixed)
    {payload : Bytes} (hpayload : payload.length = layout.payloadBytes) :
    edits.foldl (BlockEdit.apply block) payload
      = copySpans payload (edits.flatMap (BlockEdit.ranges block payload)) := by
  induction edits generalizing payload with
  | nil => rfl
  | cons edit edits ih =>
    obtain ⟨hfirst, hapart⟩ := pairwise_cons.mp hapart
    obtain ⟨hedit, hfixed⟩ := forall_mem_cons.mp hfixed
    have happly := copySpans_ranges hedit hblock hpayload
    have hlen := length_copySpans _ _ (ranges_inside hedit hblock hpayload)
    have hsame : edits.flatMap (ranges block (edit.apply block payload))
        = edits.flatMap (ranges block payload) := by
      refine flatMap_congr fun other hother => ?_
      refine ranges_congr (hfixed other hother) hblock fun i hlow hhigh => ?_
      refine getElem?_apply hedit hblock hpayload ?_
      have : edit.fixed.Apart layout.blockCount other.fixed := hfirst other hother
      unfold FixedColumn.Apart at this
      omega
    rw [foldl_cons, ih hfixed hapart (by rw [← happly, hlen, hpayload]), hsame, ← happly,
      flatMap_cons, copySpans, copySpans, copySpans, foldl_append]

/-! ## The columns of a write -/

namespace BlockWrite

variable {layout : ChunkLayout} {block : ℕ} {write next : BlockWrite}

/-- The columns whose arrays a write edits. -/
def columns (write : BlockWrite) : List ℕ := write.edits.map (·.fixed.column)

theorem Adds.columns {index : ℕ} (h : write.Adds layout block index next) :
    next.given = write.given
      ∧ ∀ seen, write.columns.Sublist seen → next.columns.Sublist (seen ++ [index]) := by
  cases h with
  | nothing | change => exact ⟨rfl, fun seen hseen => hseen.trans (sublist_append_left _ _)⟩
  | edit hfixed null value =>
    have hindex := find?_some hfixed
    refine ⟨rfl, fun seen hseen => ?_⟩
    rw [columns, add, map_append, map_singleton]
    exact hseen.append (by simpa using hindex)

/-- The edits are of columns that were given, each once. -/
def Once (write : BlockWrite) : Prop := write.columns.Sublist write.given ∧ write.given.Nodup

theorem once_prepareSet {values : List ColumnAssignment}
    (h : prepareSet layout block values = .ok write) : write.Once := by
  refine Fallible.foldlM_invariant h ⟨List.Sublist.refl _, nodup_nil⟩ ?_
  rintro write assignment next ⟨hcolumns, hnodup⟩ _ hnext
  obtain ⟨index, hindex, hadds⟩ := adds_assign hnext
  obtain ⟨hgiven, hadded⟩ := hadds.columns
  rw [Once, hgiven]
  exact ⟨hadded _ hcolumns, hnodup.append (nodup_singleton _) (by simpa using hindex)⟩

/-- The loop over the columns adds those that were not given. -/
theorem columns_addNewColumns (entries : List (Column × ℕ))
    (hentries : ∀ entry ∈ entries, layout.schema.columns[entry.2]? = some entry.1)
    (h : entries.foldlM (fun write entry => addNewColumn layout block write entry.2 entry.1) write
      = .ok next) {seen : List ℕ} (hseen : write.columns.Sublist seen) :
    next.columns.Sublist (seen ++ (entries.map (·.2)).filter (· ∉ write.given)) := by
  induction entries generalizing write seen with
  | nil =>
    cases h
    simpa using hseen
  | cons entry entries ih =>
    obtain ⟨hentry, hentries⟩ := forall_mem_cons.mp hentries
    rw [foldlM_cons, bind_eq_ok] at h
    obtain ⟨mid, hmid, h⟩ := h
    rw [map_cons]
    rcases adds_addNewColumn hentry hmid with rfl | ⟨hgiven, hadds⟩
    · refine (ih hentries h hseen).trans (List.Sublist.append_left ?_ _)
      exact (sublist_cons_self _ _).filter _
    · obtain ⟨hmid, hadded⟩ := hadds.columns
      rw [filter_cons_of_pos (by simpa using hgiven), ← hmid, append_cons]
      exact ih hentries h (hadded seen hseen)

theorem Once.nodup_addNewColumns (honce : write.Once)
    (h : write.addNewColumns layout block = .ok next) : next.columns.Nodup := by
  have hadded := columns_addNewColumns _ (fun entry => mem_zipIdx_iff_getElem?.mp) h honce.1
  refine hadded.nodup (honce.2.append (List.Nodup.filter _ ?_) ?_)
  · rw [zipIdx_map_snd]
    exact nodup_range'
  · intro index hgiven hmem
    simp [hgiven] at hmem

/-- The arrays of a layout do not overlap. -/
theorem apart_of_columns (hprepared : write.Prepared layout block) (hnodup : write.columns.Nodup) :
    write.edits.Pairwise fun e f => e.fixed.Apart layout.blockCount f.fixed := by
  have hordered := (placeColumns_adjoining _ _ _ layout.placed).ordered
  have : Std.Symm (FixedColumn.Apart layout.blockCount) := ⟨fun _ _ => Or.symm⟩
  refine List.Pairwise.imp_of_mem (fun he hf hne => ?_) (pairwise_map.mp hnodup)
  refine (hordered.imp (S := FixedColumn.Apart layout.blockCount) Or.inl).forall
    (hprepared.edits_fixed _ he) (hprepared.edits_fixed _ hf) ?_
  exact fun heq => hne (congrArg _ heq)

theorem apart_prepareUnset : (prepareUnset layout block).edits.Pairwise
    fun e f => e.fixed.Apart layout.blockCount f.fixed :=
  pairwise_map.mpr ((placeColumns_adjoining _ _ _ layout.placed).ordered.imp Or.inl)

end BlockWrite

/-! ## Both paths -/

theorem filter_mergeSort {A : Type} {le : A → A → Bool}
    (htrans : ∀ a b c, le a b = true → le b c = true → le a c = true)
    (htotal : ∀ a b, (le a b || le b a) = true) (p : A → Bool) (l : List A) :
    (l.mergeSort le).filter p = (l.filter p).mergeSort le := by
  induction l with
  | nil => simp
  | cons a l ih =>
    obtain ⟨l₁, l₂, hsorted, hrest, hbefore⟩ := mergeSort_cons htrans htotal a l
    have hafter := (pairwise_cons.mp (pairwise_append.mp
      (hsorted ▸ pairwise_mergeSort htrans htotal (a :: l))).2.1).1
    -- a sorted list has one place for `a`
    have hcut : ∀ x y : List A, (∀ b ∈ x, (!le a b) = true) → (∀ b ∈ y, le a b = true) →
        (x ++ y).filter (fun b => !le a b) = x := by
      intro x y hx hy
      rw [filter_append, filter_eq_self.mpr hx,
        filter_eq_nil_iff.mpr (by simpa using hy), append_nil]
    rw [hrest, filter_append] at ih
    rw [hsorted, filter_append]
    by_cases hp : p a = true
    · obtain ⟨k₁, k₂, hkept, hrest', hbefore'⟩ :=
        mergeSort_cons htrans htotal a (l.filter p)
      have hafter' := (pairwise_cons.mp (pairwise_append.mp
        (hkept ▸ pairwise_mergeSort htrans htotal (a :: l.filter p))).2.1).1
      have hfirst := hcut (l₁.filter p) (l₂.filter p)
        (fun b hb => hbefore b (mem_of_mem_filter hb))
        (fun b hb => hafter b (mem_of_mem_filter hb))
      rw [ih, hrest', hcut k₁ k₂ hbefore' hafter'] at hfirst
      rw [hrest', ← hfirst] at ih
      rw [filter_cons_of_pos hp, filter_cons_of_pos hp, hkept, hfirst, append_cancel_left ih]
    · rw [filter_cons_of_neg hp, filter_cons_of_neg hp, ih]

/-- A live write refuses what the private one refuses and leaves the same state, and it logs
nothing exactly when that is the old state. -/
structure Agrees (state : ChunkState) (live : Fallible (Option Mutated))
    (inState : Fallible ChunkState) : Prop where
  result : live.map (fun result => (result.map (·.state)).getD state) = inState
  unlogged : live = .ok none ↔ inState = .ok state

/-- An update that changes values gives other values. -/
theorem VarUpdate.Gives.changes_eq_nil {update : VarUpdate} {vars : ChunkVars}
    (h : update.Gives vars vars) (hreplace : update.replace = none) : update.changes = [] := by
  obtain ⟨hascending, hsame⟩ := h.merged hreplace
  rw [eq_nil_iff_forall_not_mem]
  intro change hmem
  refine h.real change hmem ?_
  rw [hsame]
  exact find_merge vars hascending hmem

section Paths

variable {writer : Writer} {state : ChunkState} {block : ℕ} {present : Bool}
  (hstate : writer.layout.ValidState state) (hblock : block < writer.layout.blockCount)

include hstate hblock

theorem Writer.writeBlockColumns_agrees {write : BlockWrite}
    (hprepared : write.Prepared writer.layout block)
    (hapart : write.edits.Pairwise fun e f => e.fixed.Apart writer.layout.blockCount f.fixed) :
    Agrees state (writer.writeBlockColumns block write present state)
      (writer.applyBlockWriteToState block write present state) := by
  have hranges : (write.edits.flatMap (ranges block state.payload)).Pairwise
      fun r s => r.1 + r.2.length ≤ s.1 ∨ s.1 + s.2.length ≤ r.1 := by
    refine pairwise_flatMap.mpr ⟨fun edit hedit => ranges_apart
      (hprepared.edits_fixed edit hedit) hblock hstate.payload_length, ?_⟩
    refine List.Pairwise.imp_of_mem (fun he hf hapart r hr s hs => ?_) hapart
    have hr := ranges_within (hprepared.edits_fixed _ he) hblock hstate.payload_length r hr
    have hs := ranges_within (hprepared.edits_fixed _ hf) hblock hstate.payload_length s hs
    unfold FixedColumn.Apart at hapart
    omega
  have hchanged := changedRanges_eq_nil_iff (hprepared.ranges_inside hstate hblock) hranges
  have hpresence := presenceSpan_eq_nil_iff writer.layout present (hstate.presenceByte_lt hblock)
  have hpayload := foldl_apply_eq hblock hprepared.edits_fixed hapart hstate.payload_length
  unfold writeBlockColumns applyBlockWriteToState
  dsimp only
  rw [filter_mergeSort (fun a b c => by simpa using le_trans) (by simp [le_total]), hpayload]
  generalize hupdate : VarUpdate.mk (List.mergeSort _ _) none = update
  have hreplace : update.replace = none := by rw [← hupdate]
  cases hlimit : writer.requireVarWrite state.vars update with
  | error e => exact ⟨rfl, by simp [bind, Except.bind]⟩
  | ok _ =>
    rw [ok_bind, ok_bind]
    split
    · rename_i hsame
      rw [hpresence.mp hsame.1, hchanged.mp hsame.2.2, updateVars, if_pos hsame.2.1]
      exact ⟨rfl, iff_of_true rfl rfl⟩
    · rename_i hsome
      cases hvars : updateVars state.vars update with
      | error e => exact ⟨rfl, by simp [bind, Except.bind]⟩
      | ok vars =>
        refine ⟨rfl, iff_of_false nofun fun h => hsome ?_⟩
        have hsame := Except.ok.inj h
        have hgives := updateVars_gives hvars (by simp [hreplace])
        rw [show vars = state.vars from congrArg ChunkState.vars hsame] at hgives
        refine ⟨hpresence.mpr (congrArg ChunkState.presence hsame), ?_,
          hchanged.mpr (congrArg ChunkState.payload hsame)⟩
        rw [VarUpdate.isEmpty, hgives.changes_eq_nil hreplace, hreplace]
        rfl

theorem Writer.writeBlockBits_agrees (hbits : writer.layout.bitStringBlocks = true)
    {digits : List Char} (hdigits : digits.length = writer.layout.blockBits) :
    Agrees state (.ok (writer.writeBlockBits block digits present state))
      (.ok { state with
        payload := writeBits state.payload (block * writer.layout.blockBits) digits
        presence := putBit state.presence block present }) := by
  obtain ⟨hpos, hle⟩ := ChunkLayout.blockBits_le hbits hblock
  have hpresence := presenceSpan_eq_nil_iff writer.layout present (hstate.presenceByte_lt hblock)
  have hwindow := inWindow_writeBits digits
  have hroom : block * writer.layout.blockBits + digits.length ≤ 8 * state.payload.length := by
    rw [hdigits, hstate.payload_length]
    exact hle
  have hcopy := (inWindow_writeBits digits).copyInto (by omega) hroom
  unfold writeBlockBits
  dsimp only
  set bit := block * writer.layout.blockBits
  set size := (bit + digits.length - 1) / 8 - bit / 8 + 1
  set window := (state.payload.drop (bit / 8)).take size with hwindow
  set next := writeBits window (bit - bit / 8 * 8) digits with hnext
  have hlength : next.length = size := by
    rw [hnext, length_writeBits, hwindow, length_take, length_drop]
    omega
  have hend : bit / 8 + size ≤ state.payload.length := by omega
  have hchanged := @changedRanges_eq_nil_iff state.payload [(bit / 8, next)]
    (by simpa [hlength] using hend) (pairwise_singleton _ _)
  simp only [changedRanges, filter_eq_nil_iff, mem_singleton, forall_eq, decide_eq_true_eq, not_not,
    hlength, ← hwindow, copySpans, foldl_cons, foldl_nil, hcopy] at hchanged
  simp only [hcopy, ite_eq_left_iff, cons_ne_nil, imp_false, not_not]
  split
  · rename_i hsame
    rw [hpresence.mp hsame.2, hchanged.mp hsame.1.symm]
    exact ⟨rfl, iff_of_true rfl rfl⟩
  · rename_i hsome
    refine ⟨rfl, iff_of_false (fun h => by cases h) fun h => hsome ?_⟩
    have hsame := Except.ok.inj h
    exact ⟨(hchanged.mpr (congrArg ChunkState.payload hsame)).symm,
      hpresence.mpr (congrArg ChunkState.presence hsame)⟩

end Paths

/-- Block writes on the live chunk and in a private copy refuse the same writes and end in the
same state.  The live write logs nothing exactly when that is the old state, and its frame
replays the old state to the new one. -/
theorem block_writes_agree (writer : Writer) {state : ChunkState}
    (hstate : writer.layout.Canonical state) {block : ℕ} (hblock : block < writer.layout.blockCount) :
    (∀ values, Agrees state (writer.setBlock block values state)
      (writer.setBlockInState block values state))
    ∧ Agrees state (writer.unsetBlock block state) (writer.unsetBlockInState block state)
    ∧ ∀ m, (∃ values, writer.setBlock block values state = .ok (some m))
        ∨ writer.unsetBlock block state = .ok (some m) →
      ∀ (table : Table) version, table.StateAt version state → table.IsLayout version writer.layout →
        table.Replays version state m.state m.records := by
  refine ⟨fun values => ?_, ?_, fun m hm table version hat hlayout => ?_⟩
  · unfold Writer.setBlock Writer.setBlockInState
    cases hwrite : prepareSet writer.layout block values with
    | error e => exact ⟨rfl, by simp [bind, Except.bind]⟩
    | ok write =>
      have hprepared := prepared_prepareSet hwrite
      have honce := once_prepareSet hwrite
      rw [ok_bind, ok_bind]
      split
      · exact writer.writeBlockColumns_agrees hstate.valid hblock hprepared
          (apart_of_columns hprepared (honce.1.nodup honce.2))
      · cases hall : write.addNewColumns writer.layout block with
        | error e => exact ⟨rfl, by simp [bind, Except.bind]⟩
        | ok all =>
          have hprepared := prepared_addNewColumns hprepared hall
          exact writer.writeBlockColumns_agrees hstate.valid hblock hprepared
            (apart_of_columns hprepared (honce.nodup_addNewColumns hall))
  · unfold Writer.unsetBlock Writer.unsetBlockInState
    cases hbits : writer.layout.bitStringBlocks with
    | false =>
      exact writer.writeBlockColumns_agrees hstate.valid hblock
        writes_prepareUnset.toPrepared apart_prepareUnset
    | true => exact writer.writeBlockBits_agrees hstate.valid hblock hbits length_replicate
  · have hcount := hlayout.blockCount_eq.trans_le table.blockCount_le
    have hdescribed : m.Described writer.layout state := by
      rcases hm with ⟨values, hset⟩ | hunset
      · exact writer.setBlock_described hstate.valid hstate.size_le hcount hblock hset
      · exact writer.unsetBlock_described hstate.valid hstate.size_le hcount hblock hunset
    obtain ⟨_, _, _, hdescribes⟩ := hdescribed
    exact hdescribes.replays hat hlayout

/-- Level 7 for the first of eight cells, in a copy of the chunk and on the chunk. -/
theorem block_writes_agree_level :
    (⟨eightShape.cellsLayout, kVarMaxChunkBytesLimit, le_rfl⟩ : Writer).setBlockInState 0
        [⟨"level", .uint 7⟩] (fullState 1) = .ok (levelState 1)
      ∧ eightShape.table.Replays 1 (fullState 1) (levelState 1) [.span 0 [7]] := by
  have hbefore := eightShape.stateAt_fullState (show eightShape.count = 8 * 1 from rfl)
  obtain ⟨layout, hlayout, hvalid⟩ := hbefore.valid
  obtain rfl := hlayout.eq eightShape.isLayout_one
  have hrun := eightShape.run_setBlock 0 (le_refl kVarMaxChunkBytesLimit)
  obtain ⟨hset, _, hframe⟩ := block_writes_agree
    ⟨eightShape.cellsLayout, kVarMaxChunkBytesLimit, le_rfl⟩ ⟨hvalid, hbefore.size_le⟩
    (show 0 < eightShape.cellsLayout.blockCount by decide)
  have hresult := (hset [⟨"level", .uint 7⟩]).result
  rw [show Writer.setBlock _ _ _ _ = _ from hrun] at hresult
  exact ⟨hresult.symm, hframe _ (.inl ⟨_, hrun⟩) _ _ hbefore eightShape.isLayout_one⟩

end ChunkDb
