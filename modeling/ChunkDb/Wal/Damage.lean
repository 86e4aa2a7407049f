/-
# Damage inside a WAL

An alteration of at most 32 consecutive bits inside a frame that is followed by others.
The next frame keeps its header, so a stop at the altered frame passes for a crash only
when the frame seems to reach the end of the file, which the parser may conclude from a
TLV size it reads before the header checksum.
-/
import ChunkDb.Wal.ReplaySpec

open LittleEndian ByteBits List

namespace ChunkDb

open FrameHeader

/-! ## Alterations of a part of a byte string -/

variable {s k : ℕ} {a b rest altered : Bytes}

theorem AgreeOutside.append_right (h : AgreeOutside s k a b) (hlen : b.length = a.length)
    (rest : Bytes) : AgreeOutside s k (a ++ rest) (b ++ rest) := by
  intro i hi
  by_cases hin : i < 8 * a.length
  · rw [getBit_append_left _ _ _ hin, getBit_append_left _ _ _ (by omega)]
    exact h i hi
  · obtain ⟨j, rfl⟩ : ∃ j, i = 8 * a.length + j := ⟨i - 8 * a.length, by omega⟩
    rw [getBit_append_right]
    rw [← hlen, getBit_append_right]

/-- A slice is altered where the whole is. -/
theorem AgreeOutside.slice (h : AgreeOutside s k a b) (off n : ℕ) :
    AgreeOutside (s - 8 * off) k ((a.drop off).take n) ((b.drop off).take n) := by
  intro i hi
  rw [getBit_take, getBit_take, getBit_drop, getBit_drop]
  split
  · exact h _ (by omega)
  · rfl

/-- Bytes outside the alteration are kept. -/
theorem AgreeOutside.slice_eq (h : AgreeOutside s k a b) (hlen : b.length = a.length) (off n : ℕ)
    (hout : 8 * (off + n) ≤ s ∨ s + k ≤ 8 * off) : (a.drop off).take n = (b.drop off).take n := by
  apply ext_getBit
  · simp only [length_take, length_drop, hlen]
  · intro i hi
    have hi' : i < 8 * n := by
      rw [length_take] at hi
      omega
    rw [getBit_take, getBit_take, if_pos hi', if_pos hi', getBit_drop, getBit_drop]
    exact h _ (by omega)

/-! ## The header of an altered frame -/

/-- Two headers with valid checksums and TLV areas of one size that differ in at most 32
consecutive bits are the same. -/
theorem headerCrcMatches_burst {tlvSize : ℕ} (hlen : altered.length = rest.length)
    (hfits : kWalFrameFixedHeaderSize + tlvSize + kWalFrameHeaderCrcSize ≤ rest.length)
    (h : headerCrcMatches rest tlvSize = true) (haltered : headerCrcMatches altered tlvSize = true)
    (hagree : AgreeOutside s 32 rest altered) :
    (rest.drop 4).take (kWalFrameFixedHeaderSize + tlvSize)
      = (altered.drop 4).take (kWalFrameFixedHeaderSize + tlvSize) := by
  unfold kWalFrameFixedHeaderSize kWalFrameHeaderCrcSize at *
  have hsplit : ∀ bytes : Bytes, (bytes.drop 4).take (32 + tlvSize)
      = (bytes.drop 4).take (32 + tlvSize - 4) ++ (bytes.drop (32 + tlvSize)).take 4 := by
    intro bytes
    rw [show 32 + tlvSize = 28 + tlvSize + 4 by omega, take_add, drop_drop,
      Nat.add_sub_cancel, Nat.add_comm 4 (28 + tlvSize)]
  have hslice := hagree.slice 4 (32 + tlvSize)
  rw [hsplit rest, hsplit altered] at hslice ⊢
  refine crc32_detects_burst _ _ _ _ ?_ ?_ ?_ (beq_iff_eq.mp h) (beq_iff_eq.mp haltered) _ hslice
  all_goals
    simp only [length_take, length_drop]
    omega

/-- A read inside a slice. -/
theorem readLe_slice (w : ℕ) (bytes : Bytes) (k n off : ℕ) (h : off + w ≤ n) :
    readLe w ((bytes.drop k).take n) off = readLe w bytes (k + off) := by
  rw [readLe_take _ _ _ _ h, readLe_drop]

theorem FrameHeader.read_eq_of_slice {n : ℕ} (hn : 28 ≤ n)
    (h : (rest.drop 4).take n = (altered.drop 4).take n) :
    FrameHeader.read altered = FrameHeader.read rest := by
  have hread : ∀ w off, off + w ≤ 28 → readLe w altered (4 + off) = readLe w rest (4 + off) := by
    intro w off hoff
    rw [← readLe_slice w altered 4 n off (by omega), ← h, readLe_slice w rest 4 n off (by omega)]
  unfold read
  rw [hread 8 0 (by omega), hread 8 8 (by omega), hread 2 16 (by omega), hread 2 18 (by omega),
    hread 4 20 (by omega), hread 4 24 (by omega)]

/-- The header fits in the file and, where its checksum is valid, so does the frame; one
that ends with the file has a valid body too. -/
def EndsInFile (rest : Bytes) : Prop :=
  (read rest).headerSize ≤ rest.length
    ∧ (headerCrcMatches rest (read rest).tlvSize = true →
      (read rest).total < rest.length
        ∨ (read rest).total = rest.length
          ∧ crc32 ((rest.drop (read rest).headerSize).take (read rest).bodySize)
            = readLe 4 rest ((read rest).headerSize + (read rest).bodySize))

instance (rest : Bytes) : Decidable (EndsInFile rest) := by
  unfold EndsInFile
  infer_instance

/-- The parser takes a frame to reach the end of the file exactly when it does not end in
the file. -/
theorem parseFrameHeader_reachesEnd (hlen : kWalFrameFixedHeaderSize ≤ rest.length)
    (hmagic : rest.take 4 = kWalFrameMagic) :
    (∃ stop, parseFrameHeader rest = .error stop ∧ stop.reachesEnd = true) ↔ ¬ EndsInFile rest := by
  unfold parseFrameHeader EndsInFile
  rw [if_neg (by omega), if_neg (not_not.mpr hmagic)]
  generalize read rest = header
  dsimp only
  by_cases hheader : rest.length < header.headerSize
  · rw [if_pos hheader]
    exact iff_of_true ⟨_, rfl, rfl⟩ fun h => absurd h.1 (by omega)
  rw [if_neg hheader]
  by_cases hcrc : headerCrcMatches rest header.tlvSize = false
  · rw [if_pos hcrc]
    refine iff_of_false ?_ ?_
    · rintro ⟨stop, hstop, hend⟩
      rw [← Except.error.inj hstop] at hend
      exact Bool.noConfusion hend
    · exact not_not.mpr ⟨by omega, fun h => absurd h (by rw [hcrc]; exact Bool.false_ne_true)⟩
  rw [if_neg hcrc]
  rw [Bool.not_eq_false] at hcrc
  by_cases hbody : header.total > rest.length
  · rw [if_pos hbody]
    refine iff_of_true ⟨_, rfl, decide_eq_true hbody.le⟩ fun h => ?_
    rcases h.2 hcrc with h | h <;> omega
  rw [if_neg hbody]
  by_cases hvalid : crc32 ((rest.drop header.headerSize).take header.bodySize)
      = readLe 4 rest (header.headerSize + header.bodySize)
  · rw [if_neg (not_not.mpr hvalid)]
    refine iff_of_false ?_ (not_not.mpr ⟨by omega, fun _ => ?_⟩)
    · rintro ⟨stop, hstop, _⟩
      exact nomatch hstop
    · rcases Nat.lt_or_ge header.total rest.length with h | h
      · exact Or.inl h
      · exact Or.inr ⟨by omega, hvalid⟩
  · rw [if_pos hvalid]
    constructor
    · rintro ⟨stop, hstop, hend⟩ ⟨_, h⟩
      rw [← Except.error.inj hstop] at hend
      have hge := of_decide_eq_true hend
      rcases h hcrc with h | h
      · omega
      · exact hvalid h.2
    · intro h
      refine ⟨_, rfl, decide_eq_true ?_⟩
      by_contra hlt
      exact h ⟨by omega, fun _ => Or.inl (by omega)⟩

namespace FrameInput

variable {input next : FrameInput} {altered : Bytes} {s : ℕ}

/-- With the TLV size as it was, the alteration leaves the extent of the frame or breaks the
header checksum. -/
theorem endsInFile_of_tlvSize (hbuilt : input.Built)
    (hlen : altered.length = input.frameBytes.length)
    (hagree : AgreeOutside s 32 input.frameBytes altered) {rest : Bytes} (hrest : rest ≠ [])
    (htlv : (FrameHeader.read (altered ++ rest)).tlvSize = input.tlvArea.length) :
    EndsInFile (altered ++ rest) := by
  have htotal := input.total_header
  have hpos : 0 < rest.length := length_pos_iff.mpr hrest
  have hfile : (altered ++ rest).length = input.header.total + rest.length := by
    rw [length_append, hlen, length_frameBytes]
  refine ⟨?_, fun hcrc => Or.inl ?_⟩
  · rw [headerSize, htlv, hfile]
    unfold kWalFrameFixedHeaderSize kWalFrameHeaderCrcSize
    omega
  · have hwritten : (input.frameBytes ++ rest).length = input.header.total + rest.length := by
      rw [length_append, length_frameBytes]
    rw [htlv] at hcrc
    have hslice := headerCrcMatches_burst (hfile.trans hwritten.symm)
      (by unfold kWalFrameFixedHeaderSize kWalFrameHeaderCrcSize; omega)
      (input.headerCrcMatches_frameBytes rest) hcrc (hagree.append_right hlen rest)
    rw [read_eq_of_slice (by unfold kWalFrameFixedHeaderSize; omega) hslice,
      input.read_frameBytes hbuilt, hfile]
    omega

/-- The magic and the TLV size are too far apart to be altered at once. -/
theorem take_of_tlvSize_ne (hbuilt : input.Built) (hlen : altered.length = input.frameBytes.length)
    (hagree : AgreeOutside s 32 input.frameBytes altered) (rest : Bytes)
    (htlv : (FrameHeader.read (altered ++ rest)).tlvSize ≠ input.tlvArea.length) :
    (altered ++ rest).take 4 = kWalFrameMagic := by
  have hagree := hagree.append_right hlen rest
  have hlen : (altered ++ rest).length = (input.frameBytes ++ rest).length := by
    rw [length_append, length_append, hlen]
  have hs : 144 < s := by
    by_contra hle
    have hslice := hagree.slice_eq hlen 22 2 (by omega)
    have hread : readLe 2 (altered ++ rest) 22 = readLe 2 (input.frameBytes ++ rest) 22 := by
      rw [readLe, readLe, hslice]
    exact htlv (hread.trans (congrArg tlvSize (input.read_frameBytes hbuilt rest)))
  have hslice := hagree.slice_eq hlen 0 4 (by omega)
  rw [drop_zero, drop_zero, input.take_frameBytes] at hslice
  exact hslice.symm

/-- A frame that follows has a valid header. -/
theorem isValidFrameHeader_frameBytes (h : next.Built) (rest : Bytes) :
    isValidFrameHeader (next.frameBytes ++ rest) = true := by
  have htotal := next.total_header
  have hlen : (next.frameBytes ++ rest).length = next.header.total + rest.length := by
    rw [length_append, length_frameBytes]
  have htlv : readLe 2 (next.frameBytes ++ rest) 22 = next.tlvArea.length :=
    congrArg tlvSize (next.read_frameBytes h rest)
  rw [isValidFrameHeader, htlv, next.take_frameBytes, next.headerCrcMatches_frameBytes, hlen]
  unfold kWalFrameFixedHeaderSize kWalFrameHeaderCrcSize
  simp only [beq_self_eq_true, Bool.and_true, Bool.and_eq_true, decide_eq_true_eq]
  omega

theorem hasValidFrameHeaderAfter_next (h : next.Built) (hpos : altered ≠ []) (rest : Bytes) :
    hasValidFrameHeaderAfter (altered ++ (next.frameBytes ++ rest)) = true := by
  have hlen : 0 < altered.length := length_pos_iff.mpr hpos
  rw [hasValidFrameHeaderAfter, any_eq_true]
  refine ⟨altered.length - 1, mem_range.mpr ?_, ?_⟩
  · rw [length_append]
    omega
  · rw [Nat.sub_add_cancel hlen, drop_left' rfl]
    exact isValidFrameHeader_frameBytes h rest

end FrameInput

/-! ## What a round decides -/

/-- What a round decides of a frame, by what its header says. -/
def FrameOutcome.Decided (rest : Bytes) : FrameOutcome → Prop
  | .stopped _ crashTail => crashTail = true ↔
      ∃ stop, parseFrameHeader rest = .error stop ∧ stoppedAtCrashTail stop rest = true
  | .skipped frame | .applied frame _ =>
    ∃ header, parseFrameHeader rest = .ok header ∧ frame.size = header.total

/-- A stop that is not of the header is of an intact frame, never a crash. -/
theorem FrameOutcome.decided_of_ok {header : FrameHeader} (h : parseFrameHeader rest = .ok header)
    (reason : String) : FrameOutcome.Decided rest (.stopped reason false) := by
  refine iff_of_false Bool.false_ne_true ?_
  rintro ⟨stop, hstop, _⟩
  rw [h] at hstop
  exact nomatch hstop

theorem size_of_parseFrameRecords {shape : FrameShape} {header : FrameHeader} {fields : TlvFields}
    {frame : ParsedFrame} (h : parseFrameRecords shape header fields rest = .ok frame) :
    frame.size = header.total := by
  unfold parseFrameRecords at h
  dsimp only at h
  cases hrecords : parseRecords shape header.recordCount ⟨[], [], none⟩
      ((rest.drop header.headerSize).take header.bodySize) with
  | error reason =>
    rw [hrecords] at h
    exact nomatch h
  | ok records =>
    rw [hrecords] at h
    simp only [bind, Except.bind] at h
    split at h
    · exact nomatch h
    · rw [← Except.ok.inj h]

/-- What parsing a frame gives, by what its header says. -/
theorem parseFrame_cases {geometry : Geometry} {maySkipUnknown slotsEnabled : Bool}
    {parsed : Except Stop ParsedFrame}
    (h : parseFrame geometry maySkipUnknown slotsEnabled rest = .ok parsed) :
    (∃ stop, parseFrameHeader rest = .error stop ∧ parsed = .error stop)
      ∨ ∃ header, parseFrameHeader rest = .ok header
        ∧ ((∃ stop, stop.intact = true ∧ parsed = .error stop)
          ∨ ∃ frame, frame.size = header.total ∧ parsed = .ok frame) := by
  unfold parseFrame at h
  split at h
  · rename_i stop hstop
    exact Or.inl ⟨stop, hstop, (Except.ok.inj h).symm⟩
  · rename_i header hheader
    refine Or.inr ⟨header, hheader, ?_⟩
    dsimp only at h
    split at h
    · exact Or.inl ⟨_, rfl, (Except.ok.inj h).symm⟩
    · rename_i fields hfields
      obtain ⟨layout, _, h⟩ := bind_eq_ok.mp h
      have h := Except.ok.inj h
      cases hrecords : parseFrameRecords (frameShape geometry layout maySkipUnknown) header fields
          rest with
      | error reason =>
        rw [hrecords] at h
        exact Or.inl ⟨_, rfl, h.symm⟩
      | ok frame =>
        rw [hrecords] at h
        exact Or.inr ⟨frame, size_of_parseFrameRecords hrecords, h.symm⟩

theorem stoppedAtCrashTail_intact {stop : Stop} (h : stop.intact = true) (rest : Bytes) :
    stoppedAtCrashTail stop rest = false := by
  rw [stoppedAtCrashTail, h]
  rfl

namespace Replayer

variable {replayer : Replayer}

variable {rest : Bytes} {fuel : ℕ} {progress final : ReplayProgress}

theorem applyAccepted_decided {frame : ParsedFrame} {state : ReplayState} {header : FrameHeader}
    {outcome : FrameOutcome} (hheader : parseFrameHeader rest = .ok header)
    (hsize : frame.size = header.total) (h : replayer.applyAccepted frame state = .ok outcome) :
    outcome.Decided rest := by
  unfold applyAccepted at h
  split at h
  · rw [← Except.ok.inj h]
    exact FrameOutcome.decided_of_ok hheader _
  · simp only [bind_eq_ok] at h
    obtain ⟨moved, _, refused, _, h⟩ := h
    split at h
    · rw [← Except.ok.inj h]
      exact FrameOutcome.decided_of_ok hheader _
    · obtain ⟨after, _, h⟩ := bind_eq_ok.mp h
      rw [← Except.ok.inj h]
      exact ⟨header, hheader, hsize⟩

/-- One round. -/
theorem replayFrame_decided {previousRevision : ℕ} {state : ReplayState} {outcome : FrameOutcome}
    (h : replayer.replayFrame previousRevision state rest = .ok outcome) :
    outcome.Decided rest := by
  unfold replayFrame at h
  obtain ⟨parsed, hparse, h⟩ := bind_eq_ok.mp h
  rcases parseFrame_cases hparse with ⟨stop, hstop, rfl⟩ | ⟨header, hheader, hparsed⟩
  · rw [← Except.ok.inj h]
    constructor
    · exact fun hcrash => ⟨stop, hstop, hcrash⟩
    · rintro ⟨other, hother, hcrash⟩
      rw [hstop] at hother
      rwa [Except.error.inj hother]
  rcases hparsed with ⟨stop, hintact, rfl⟩ | ⟨frame, hsize, rfl⟩
  · rw [← Except.ok.inj h, stoppedAtCrashTail_intact hintact]
    exact FrameOutcome.decided_of_ok hheader _
  · dsimp only at h
    split at h
    · rw [← Except.ok.inj h, stoppedAtCrashTail_intact rfl]
      exact FrameOutcome.decided_of_ok hheader _
    split at h
    · rw [← Except.ok.inj h]
      exact ⟨header, hheader, hsize⟩
    · exact applyAccepted_decided hheader hsize h

/-- One round of the loop: a stop, or a frame as long as its header says and on. -/
theorem replayLoop_step (hrest : rest ≠ [])
    (h : replayer.replayLoop (fuel + 1) progress rest = .ok final) :
    (∃ reason crashTail, FrameOutcome.Decided rest (.stopped reason crashTail)
        ∧ final = progress.stop reason crashTail)
      ∨ ∃ header next, parseFrameHeader rest = .ok header
        ∧ next.cursor = progress.cursor + header.total
        ∧ next.result.replayable = progress.result.replayable
        ∧ next.result.tornCreation = progress.result.tornCreation
        ∧ replayer.replayLoop fuel next (rest.drop header.total) = .ok final := by
  rw [replayLoop, if_neg hrest, bind_eq_ok] at h
  obtain ⟨outcome, houtcome, h⟩ := h
  have hdecided := replayFrame_decided houtcome
  cases outcome with
  | stopped reason crashTail =>
    exact Or.inl ⟨reason, crashTail, hdecided, (Except.ok.inj h).symm⟩
  | skipped frame =>
    obtain ⟨header, hheader, hsize⟩ := hdecided
    dsimp only at h
    rw [hsize] at h
    refine Or.inr ⟨header, progress.skip frame, hheader, ?_, rfl, rfl, h⟩
    rw [← hsize]
    rfl
  | applied frame state =>
    obtain ⟨header, hheader, hsize⟩ := hdecided
    dsimp only at h
    rw [hsize] at h
    refine Or.inr ⟨header, progress.apply frame state, hheader, ?_, rfl, rfl, h⟩
    rw [← hsize]
    rfl

theorem replayLoop_cursor_le (h : replayer.replayLoop fuel progress rest = .ok final) :
    progress.cursor ≤ final.cursor := by
  induction fuel generalizing progress rest with
  | zero => exact (congrArg ReplayProgress.cursor (Except.ok.inj h)).le
  | succ fuel ih =>
    by_cases hrest : rest = []
    · rw [replayLoop, if_pos hrest] at h
      exact (congrArg ReplayProgress.cursor (Except.ok.inj h)).le
    rcases replayLoop_step hrest h with ⟨reason, crashTail, _, rfl⟩ | ⟨header, next, _, hcursor,
      _, _, h⟩
    · exact le_rfl
    · have := ih h
      omega

/-- Replay that ends at a frame or after it went over the frames before it. -/
theorem replayLoop_reaches {first : List FrameInput} (hbuilt : ∀ input ∈ first, input.Built)
    (h : replayer.replayLoop (fuel + first.length) progress (framesBytes first ++ rest) = .ok final)
    (hend : progress.cursor + (framesBytes first).length ≤ final.cursor) :
    ∃ next, next.cursor = progress.cursor + (framesBytes first).length
      ∧ next.result.replayable = progress.result.replayable
      ∧ next.result.tornCreation = progress.result.tornCreation
      ∧ replayer.replayLoop fuel next rest = .ok final := by
  induction first generalizing progress with
  | nil => exact ⟨progress, rfl, rfl, rfl, h⟩
  | cons input first ih =>
    have hinput := hbuilt input mem_cons_self
    have htotal := input.total_header
    have hlen : (framesBytes (input :: first)).length
        = input.header.total + (framesBytes first).length := by
      rw [framesBytes_cons, length_append, input.length_frameBytes]
    rw [framesBytes_cons, append_assoc] at h
    have hne : input.frameBytes ++ (framesBytes first ++ rest) ≠ [] := by
      intro hnil
      have := congrArg List.length hnil
      rw [length_append, input.length_frameBytes, length_nil] at this
      omega
    rcases replayLoop_step hne h with ⟨reason, crashTail, _, rfl⟩ | ⟨header, next, hheader,
      hcursor, hreplayable, htorn, h⟩
    · have : progress.cursor + (framesBytes (input :: first)).length ≤ progress.cursor := hend
      omega
    · rw [input.parseFrameHeader_frameBytes hinput] at hheader
      cases hheader
      rw [drop_left' input.length_frameBytes] at h
      obtain ⟨last, hlast, hlastReplayable, hlastTorn, h⟩ := ih
        (fun other hother => hbuilt other (mem_cons_of_mem _ hother)) h (by omega)
      exact ⟨last, by omega, hlastReplayable.trans hreplayable, hlastTorn.trans htorn, h⟩

/-- The end of replay keeps what the loop reported. -/
theorem finish_eq_ok {replayed : Replayed} (h : replayer.finish progress = .ok replayed) :
    ∃ varsProblem, replayed.result
      = { progress.result with validEnd := progress.cursor, varsProblem } := by
  rw [finish, bind_eq_ok] at h
  obtain ⟨state, _, h⟩ := h
  exact ⟨_, (congrArg Replayed.result (Except.ok.inj h)).symm⟩

end Replayer

/-- A stop of the header is never of an intact frame. -/
theorem parseFrameHeader_intact {stop : Stop} (h : parseFrameHeader rest = .error stop) :
    stop.intact = false := by
  unfold parseFrameHeader at h
  dsimp only at h
  split_ifs at h <;> cases h <;> rfl

theorem parseFrameHeader_magic (hlen : kWalFrameFixedHeaderSize ≤ rest.length)
    (h : rest.take 4 ≠ kWalFrameMagic) :
    parseFrameHeader rest = .error ⟨"frame_magic_mismatch", false, false⟩ := by
  rw [parseFrameHeader, if_neg (by omega), if_pos h]

/-- The stop at an altered frame passes for a crash unless the TLV size is as it was or the
frame ends in the file all the same. -/
theorem FrameInput.crashTail_altered {input next : FrameInput} (hinput : input.Built)
    (hnext : next.Built) (hlen : altered.length = input.frameBytes.length)
    (hagree : AgreeOutside s 32 input.frameBytes altered) (later : Bytes) {reason : String}
    {crashTail : Bool}
    (h : FrameOutcome.Decided (altered ++ (next.frameBytes ++ later)) (.stopped reason crashTail)) :
    crashTail = false
      ↔ (FrameHeader.read (altered ++ (next.frameBytes ++ later))).tlvSize = input.tlvArea.length
        ∨ EndsInFile (altered ++ (next.frameBytes ++ later)) := by
  have htotal := input.total_header
  have hnextTotal := next.total_header
  have hpos : altered ≠ [] := by
    rintro rfl
    rw [input.length_frameBytes, length_nil] at hlen
    omega
  have hvalid := hasValidFrameHeaderAfter_next hnext hpos later
  have hnextNe : next.frameBytes ++ later ≠ [] := by
    intro hnil
    have := congrArg List.length hnil
    rw [length_append, next.length_frameBytes, length_nil] at this
    omega
  have hends := endsInFile_of_tlvSize hinput hlen hagree hnextNe
  have hmagic := take_of_tlvSize_ne hinput hlen hagree (next.frameBytes ++ later)
  have hlong : kWalFrameFixedHeaderSize ≤ (altered ++ (next.frameBytes ++ later)).length := by
    rw [length_append, hlen, input.length_frameBytes]
    unfold kWalFrameFixedHeaderSize
    omega
  generalize altered ++ (next.frameBytes ++ later) = rest at *
  -- with a valid header behind it, only a frame that reaches the end passes for a crash
  have hcrash : crashTail = true
      ↔ ∃ stop, parseFrameHeader rest = .error stop ∧ stop.reachesEnd = true := by
    refine h.trans (exists_congr fun stop => and_congr_right fun hstop => ?_)
    rw [stoppedAtCrashTail, parseFrameHeader_intact hstop, hvalid]
    simp
  rw [← Bool.not_eq_true, hcrash]
  by_cases hmagic' : rest.take 4 = kWalFrameMagic
  · rw [parseFrameHeader_reachesEnd hlong hmagic', not_not]
    exact ⟨Or.inr, fun h => h.elim hends id⟩
  · refine iff_of_true ?_ (Or.inl (by_contra fun htlv => hmagic' (hmagic htlv)))
    rintro ⟨stop, hstop, hend⟩
    rw [parseFrameHeader_magic hlong hmagic'] at hstop
    rw [← Except.error.inj hstop] at hend
    exact Bool.noConfusion hend

/-! ## What a load does with the file -/

/-- What `LoadChunkPayload` of a writer does with a WAL it replayed. -/
inductive WalLoad
  /-- The load throws. -/
  | refused
  /-- The file is cut for further appends. -/
  | trimmed (keepBytes : ℕ)
  /-- The file stays. -/
  | kept
  deriving DecidableEq, Repr

/-- The checks of `LoadChunkPayload` after replay, in their order. -/
def walLoad (replay : WalReplayResult) : WalLoad :=
  if replay.tornCreation then .trimmed 0
  else if replay.replayable = false then .refused
  else if replay.tailTruncatedOrCorrupt ∧ replay.stoppedAtCrashTail = false then .refused
  else if replay.varsProblem ≠ "" then .refused
  else if replay.tailTruncatedOrCorrupt then .trimmed replay.validEnd
  else .kept

/-- A WAL altered in at most 32 consecutive bits of a frame that others follow: where replay
stops at that frame, the stop does not pass for a crash, and the load is refused, exactly when
the TLV size is as it was or the frame ends in the file all the same.  Otherwise the file is
cut before the frame, and the frames after it are lost. -/
theorem replayWal_altered {geometry : Geometry} {features storeFeatures : FeatureFlags}
    {base : ReplayBase} (chunkCoord : ChunkCoord) (storeId : StoreId)
    (hfeatures : isSubsetOf features storeFeatures = true) (first : List FrameInput)
    (input next : FrameInput) (later : List FrameInput)
    (hbuilt : ∀ frame ∈ first ++ input :: next :: later, frame.Built) (altered : Bytes)
    (hlen : altered.length = input.frameBytes.length) (s : ℕ)
    (hagree : AgreeOutside s 32 input.frameBytes altered) {replayed : Replayed}
    (hreplay : replayWal (buildWalHeader chunkCoord storeId features
        ++ (framesBytes first ++ (altered ++ framesBytes (next :: later)))) geometry chunkCoord
        storeId storeFeatures base = .ok replayed)
    (hend : replayed.result.validEnd = kWalHeaderSize + (framesBytes first).length) :
    let rest := altered ++ framesBytes (next :: later)
    let extentKept := (FrameHeader.read rest).tlvSize = input.tlvArea.length ∨ EndsInFile rest
    (replayed.result.stoppedAtCrashTail = false ↔ extentKept)
      ∧ (extentKept → walLoad replayed.result = .refused)
      ∧ (¬ extentKept → replayed.result.varsProblem = "" →
        walLoad replayed.result = .trimmed (kWalHeaderSize + (framesBytes first).length)) := by
  intro rest extentKept
  have hinput : input.Built := hbuilt input (by simp)
  have hnext : next.Built := hbuilt next (by simp)
  have htotal := input.total_header
  have hrest : rest ≠ [] := by
    intro hnil
    have := congrArg List.length hnil
    simp only [rest] at this
    rw [length_append, hlen, input.length_frameBytes, length_nil] at this
    omega
  -- the loop comes to the altered frame with fuel left
  rw [replayWal_buildWalHeader _ _ hfeatures, bind_eq_ok] at hreplay
  obtain ⟨state, _, hreplay⟩ := hreplay
  obtain ⟨final, hloop, hfinish⟩ := bind_eq_ok.mp hreplay
  obtain ⟨varsProblem, hresult⟩ := Replayer.finish_eq_ok hfinish
  rw [hresult] at hend ⊢
  change final.cursor = _ at hend
  obtain ⟨fuel, hfuel⟩ : ∃ fuel, kWalHeaderSize + (framesBytes first ++ rest).length
      = fuel + 1 + first.length := by
    have := length_le_framesBytes first
    refine ⟨kWalHeaderSize + (framesBytes first ++ rest).length - 1 - first.length, ?_⟩
    rw [length_append]
    unfold kWalHeaderSize
    omega
  rw [hfuel] at hloop
  obtain ⟨progress, hcursor, hreplayable, htorn, hloop⟩ := Replayer.replayLoop_reaches
    (fun frame hframe => hbuilt frame (mem_append_left _ hframe)) hloop hend.ge
  rcases Replayer.replayLoop_step hrest hloop with ⟨reason, crashTail, hdecided, rfl⟩ | ⟨header,
    after, _, hafter, _, _, hloop⟩
  · have hiff : crashTail = false ↔ extentKept :=
      FrameInput.crashTail_altered hinput hnext hlen hagree (framesBytes later) hdecided
    have hreplayable : progress.result.replayable = true := hreplayable
    have htorn : progress.result.tornCreation = false := htorn
    refine ⟨hiff, fun hkept => ?_, fun hnot hvars => ?_⟩
    · simp [walLoad, ReplayProgress.stop, htorn, hreplayable, hiff.mpr hkept]
    · have hcrash : crashTail = true := by
        rw [← Bool.not_eq_false]
        exact fun h => hnot (hiff.mp h)
      have hvars : varsProblem = "" := hvars
      have hcursor : progress.cursor = kWalHeaderSize + (framesBytes first).length := hend
      simp [walLoad, ReplayProgress.stop, htorn, hreplayable, hcrash, hvars, hcursor]
  · have hle := Replayer.replayLoop_cursor_le hloop
    have hpos : 0 < header.total := by
      unfold total kWalFrameTrailerSize
      omega
    have hstart : (ReplayProgress.start state).cursor = kWalHeaderSize := rfl
    omega

/-! ## A damaged file -/

/-- Setting a byte alters no bit outside the 32 from it on. -/
theorem agreeOutside_set (bytes : Bytes) (k : ℕ) (b : UInt8) :
    AgreeOutside (8 * k) 32 bytes (bytes.set k b) := by
  intro i hi
  unfold getBit
  rw [getD_eq_getElem?_getD, getD_eq_getElem?_getD, getElem?_set_ne (by omega : k ≠ i / 8)]

/-- The first of two frames with one byte set. -/
def alteredWal (k : ℕ) (b : UInt8) : Bytes :=
  buildWalHeader ⟨0, 0⟩ zeroStore ⟨0, 0, 0⟩
    ++ (framesBytes [] ++ ((levelFrame 1).frameBytes.set k b ++ framesBytes [levelFrame 2]))

/-- With a byte of the revision altered the load is refused. -/
theorem replayWal_altered_revision :
    ∃ replayed, replayWal (alteredWal 4 0xFF) smallShape.table.geometry ⟨0, 0⟩ zeroStore ⟨0, 0, 0⟩
        emptyBase = .ok replayed
      ∧ replayed.result.validEnd = kWalHeaderSize ∧ walLoad replayed.result = .refused := by
  have hend : (replayWal (alteredWal 4 0xFF) smallShape.table.geometry ⟨0, 0⟩ zeroStore ⟨0, 0, 0⟩
      emptyBase).map (·.result.validEnd) = .ok kWalHeaderSize := by
    decide +kernel
  obtain ⟨replayed, hreplay, hend⟩ := Fallible.map_eq_ok hend
  refine ⟨replayed, hreplay, hend, ?_⟩
  refine (replayWal_altered ⟨0, 0⟩ zeroStore (show isSubsetOf ⟨0, 0, 0⟩ ⟨0, 0, 0⟩ = true by decide)
    [] (levelFrame 1) (levelFrame 2) [] ?_ ((levelFrame 1).frameBytes.set 4 0xFF)
    length_set _ (agreeOutside_set _ 4 0xFF) hreplay hend).2.1 (Or.inl ?_)
  · intro frame hframe
    obtain ⟨revision, rfl⟩ : ∃ revision, frame = levelFrame revision := by
      rcases mem_cons.mp hframe with rfl | hframe
      · exact ⟨1, rfl⟩
      · exact ⟨2, mem_singleton.mp hframe⟩
    exact (written_levelFrame revision true).built
  · decide +kernel

/-- With a byte of the TLV size altered the frame seems to go on past the end of the file: the
whole second frame is cut off with it. -/
theorem replayWal_altered_tlvSize :
    AgreeOutside (8 * 22) 32 (levelFrame 1).frameBytes ((levelFrame 1).frameBytes.set 22 0xFF)
      ∧ (replayWal (alteredWal 22 0xFF) smallShape.table.geometry ⟨0, 0⟩ zeroStore ⟨0, 0, 0⟩
          emptyBase).map (fun replayed => (replayed.result.validEnd,
            replayed.result.stoppedAtCrashTail, walLoad replayed.result))
        = .ok (kWalHeaderSize, true, .trimmed kWalHeaderSize) :=
  ⟨agreeOutside_set _ 22 0xFF, by decide +kernel⟩

end ChunkDb
