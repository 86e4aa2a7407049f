/-
# Zero-run compression

`ZrleCompress` and `ZrleDecompress` (`zrle.cpp`).  The input is cut into runs of zeros
and of literal bytes; each is stored as a token byte, its length as a varint and, for a
literal run, its bytes.

* `zrleDecompress_zrleCompress` : compressed bytes expand to the input;
* `length_zrleCompress_le` : compression adds at most `kZrleMaxOverheadBytes`;
* `length_zrleExpand_le` : the buffer that is expanded into never outgrows the expected size.
-/
import ChunkDb.Basic

open LittleEndian List

namespace ChunkDb

def kZrleCodecId : UInt8 := 1
def kZrleMaxOverheadBytes : ℕ := 5 + 1 + 5

/-! ## Varints -/

/-- The loop of `AppendUleb128`. -/
def uleb128 : ℕ → ℕ → Bytes
  | 0, value => [UInt8.ofNat value]
  | fuel + 1, value =>
    if value < 0x80 then [UInt8.ofNat value]
    else UInt8.ofNat (value % 0x80 + 0x80) :: uleb128 fuel (value / 0x80)

/-- What `AppendUleb128` appends; the value bounds the rounds. -/
def appendUleb128 (value : ℕ) : Bytes := uleb128 value value

/-- `ReadUleb128`: the value and the bytes after it. -/
def readUleb128 : ℕ → Bytes → Fallible (ℕ × Bytes)
  | _, [] => runtimeError "zrle: truncated varint"
  | shift, byte :: rest =>
    if 63 ≤ shift then runtimeError "zrle: varint too large"
    else if byte.toNat < 0x80 then .ok (byte.toNat * 2 ^ shift, rest)
    else do
      let (value, rest) ← readUleb128 (shift + 7) rest
      return (byte.toNat % 0x80 * 2 ^ shift + value, rest)

variable {fuel value expectedOutputSize : ℕ} {input out : Bytes}

theorem readUleb128_uleb128 (n : ℕ) {shift : ℕ} (hfuel : value ≤ fuel)
    (hvalue : value < 0x80 ^ (n + 1)) (hshift : shift + 7 * n < 63) (rest : Bytes) :
    readUleb128 shift (uleb128 fuel value ++ rest) = .ok (value * 2 ^ shift, rest) := by
  induction n generalizing fuel value shift with
  | zero =>
    have hbyte : (UInt8.ofNat value).toNat = value := by
      simp only [UInt8.toNat_ofNat']
      omega
    have hbytes : uleb128 fuel value = [UInt8.ofNat value] := by
      cases fuel with
      | zero => rfl
      | succ fuel => exact if_pos (by omega)
    rw [hbytes, singleton_append, readUleb128, if_neg (by omega), hbyte, if_pos (by omega)]
  | succ n ih =>
    by_cases hsmall : value < 0x80
    · refine ih hfuel (hsmall.trans_le ?_) (by omega)
      exact Nat.le_self_pow n.succ_ne_zero _
    obtain ⟨fuel, rfl⟩ : ∃ f, fuel = f + 1 := ⟨fuel - 1, by omega⟩
    have hbyte : (UInt8.ofNat (value % 0x80 + 0x80)).toNat = value % 0x80 + 0x80 := by
      simp only [UInt8.toNat_ofNat']
      omega
    have hquot : value / 0x80 < 0x80 ^ (n + 1) := by
      rw [Nat.div_lt_iff_lt_mul (by omega), ← pow_succ]
      exact hvalue
    rw [uleb128, if_neg hsmall, cons_append, readUleb128, if_neg (by omega), hbyte,
      if_neg (by omega), ih (by omega) hquot (by omega), ok_bind, Nat.add_mod_right,
      Nat.mod_mod, pow_add]
    have hsplit := Nat.div_add_mod value 0x80
    have hsum : value % 0x80 * 2 ^ shift + value / 0x80 * (2 ^ shift * 2 ^ 7)
        = value * 2 ^ shift := by
      calc value % 0x80 * 2 ^ shift + value / 0x80 * (2 ^ shift * 2 ^ 7)
          = (0x80 * (value / 0x80) + value % 0x80) * 2 ^ shift := by ring
        _ = value * 2 ^ shift := by rw [hsplit]
    rw [← hsum]
    rfl

theorem readUleb128_appendUleb128 (h : value < 2 ^ 32) (rest : Bytes) :
    readUleb128 0 (appendUleb128 value ++ rest) = .ok (value, rest) := by
  have := readUleb128_uleb128 4 le_rfl (h.trans (by norm_num)) (by norm_num : 0 + 7 * 4 < 63) rest
  rwa [pow_zero, Nat.mul_one] at this

theorem length_uleb128_le (n : ℕ) (hvalue : value < 0x80 ^ (n + 1)) :
    (uleb128 fuel value).length ≤ n + 1 := by
  induction fuel generalizing n value with
  | zero =>
    rw [uleb128, length_singleton]
    omega
  | succ fuel ih =>
    rw [uleb128]
    split
    · rw [length_singleton]
      omega
    · rename_i hbig
      cases n with
      | zero => omega
      | succ n =>
        have hquot : value / 0x80 < 0x80 ^ (n + 1) := by
          rw [Nat.div_lt_iff_lt_mul (by omega), ← pow_succ]
          exact hvalue
        rw [length_cons]
        have := ih n hquot
        omega

theorem length_appendUleb128_le (h : value < 2 ^ 32) : (appendUleb128 value).length ≤ 5 :=
  length_uleb128_le 4 (h.trans (by norm_num))

/-! ## Runs -/

/-- A run of the input. -/
inductive ZrleRun
  | zeros (count : ℕ)
  | literal (bytes : Bytes)

namespace ZrleRun

/-- The bytes a run stands for. -/
def expand : ZrleRun → Bytes
  | zeros count => List.replicate count 0
  | literal bytes => bytes

/-- The token of a run, its length and its literal bytes. -/
def encode : ZrleRun → Bytes
  | zeros count => 0x00 :: appendUleb128 count
  | literal bytes => 0x01 :: (appendUleb128 bytes.length ++ bytes)

end ZrleRun

/-- The zeros the bytes start with. -/
def zeroCount (bytes : Bytes) : ℕ := (bytes.takeWhile (· == 0)).length

/-- How far a literal run goes on: a gap of one or two zeros does not end it unless it ends
the input. -/
def literalCount : ℕ → Bytes → ℕ
  | 0, _ => 0
  | _, [] => 0
  | fuel + 1, byte :: rest =>
    if byte ≠ 0 then literalCount fuel rest + 1
    else
      let zeros := zeroCount (byte :: rest)
      if zeros ≤ 2 ∧ zeros < (byte :: rest).length then
        literalCount fuel ((byte :: rest).drop (zeros + 1)) + (zeros + 1)
      else 0

/-- The runs `ZrleCompress` cuts its input into. -/
def zrleRuns : ℕ → Bytes → List ZrleRun
  | 0, _ => []
  | _, [] => []
  | fuel + 1, byte :: rest =>
    if byte = 0 then
      let run := zeroCount (byte :: rest)
      .zeros run :: zrleRuns fuel ((byte :: rest).drop run)
    else
      let run := literalCount rest.length rest + 1
      .literal ((byte :: rest).take run) :: zrleRuns fuel ((byte :: rest).drop run)

/-- The header of compressed bytes. -/
def zrleHeader (size : ℕ) : Bytes := kZrleCodecId :: leBytes 4 size

/-- What `ZrleCompress` falls back to, up to the input itself. -/
def zrleLiteralOnly (input : Bytes) : Bytes :=
  zrleHeader input.length ++ if input = [] then [] else 0x01 :: appendUleb128 input.length

/-- `ZrleCompress`. -/
def zrleCompress (input : Bytes) : Fallible Bytes := do
  require (input.length < 2 ^ 32) ⟨.runtimeError, "zrle: input too large"⟩
  let out := zrleHeader input.length ++ (zrleRuns input.length input).flatMap ZrleRun.encode
  -- short alternating runs cost more than they save
  return if out.length > (zrleLiteralOnly input).length + input.length then
    zrleLiteralOnly input ++ input
  else out

/-- The loop of `ZrleDecompress`; `out` is what it wrote so far. -/
def zrleExpand (expectedOutputSize : ℕ) : ℕ → Bytes → Bytes → Fallible Bytes
  | 0, out, _ => .ok out
  | _, out, [] => .ok out
  | fuel + 1, out, token :: data => do
    let (run, data) ← readUleb128 0 data
    require (run ≠ 0) ⟨.runtimeError, "zrle: zero-length run"⟩
    require (run ≤ expectedOutputSize - out.length)
      ⟨.runtimeError, "zrle: output overflows expected size"⟩
    if token = 0x00 then zrleExpand expectedOutputSize fuel (out ++ List.replicate run 0) data
    else if token = 0x01 then do
      require (run ≤ data.length) ⟨.runtimeError, "zrle: truncated literal run"⟩
      zrleExpand expectedOutputSize fuel (out ++ data.take run) (data.drop run)
    else runtimeError "zrle: unknown token"

/-- `ZrleDecompress`. -/
def zrleDecompress (data : Bytes) (expectedOutputSize : ℕ) : Fallible Bytes := do
  require (5 ≤ data.length) ⟨.runtimeError, "zrle: input too small"⟩
  require (data.getD 0 0 = kZrleCodecId) ⟨.runtimeError, "zrle: unsupported codec id"⟩
  require (readLe 4 data 1 = expectedOutputSize)
    ⟨.runtimeError, "zrle: declared size does not match expected size"⟩
  let out ← zrleExpand expectedOutputSize data.length [] (data.drop 5)
  require (out.length = expectedOutputSize)
    ⟨.runtimeError, "zrle: output smaller than expected size"⟩
  return out

/-! ## Compressed bytes expand to the input -/

/-- Runs that stand for these bytes, none of them empty. -/
structure RunsOf (runs : List ZrleRun) (input : Bytes) : Prop where
  expand_eq : runs.flatMap ZrleRun.expand = input
  nonempty : ∀ run ∈ runs, run.expand ≠ []

theorem RunsOf.cons {run : ZrleRun} {runs : List ZrleRun} {rest : Bytes} (hrun : run.expand ≠ [])
    (h : RunsOf runs rest) : RunsOf (run :: runs) (run.expand ++ rest) where
  expand_eq := by rw [flatMap_cons, h.expand_eq]
  nonempty := forall_mem_cons.mpr ⟨hrun, h.nonempty⟩

theorem take_zeroCount (bytes : Bytes) :
    bytes.take (zeroCount bytes) = List.replicate (zeroCount bytes) 0 := by
  rw [zeroCount, ← prefix_iff_eq_take.mp ( takeWhile_prefix _)]
  refine eq_replicate_iff.mpr ⟨rfl, fun b hb => ?_⟩
  exact beq_iff_eq.mp (all_eq_true.mp all_takeWhile b hb)

theorem zeroCount_pos (rest : Bytes) : 0 < zeroCount (0 :: rest) := by
  rw [zeroCount, takeWhile_cons_of_pos (by rfl), length_cons]
  omega

/-- Every byte of the input is in a run. -/
theorem runsOf_zrleRuns (h : input.length ≤ fuel) : RunsOf (zrleRuns fuel input) input := by
  induction fuel generalizing input with
  | zero =>
    obtain rfl := eq_nil_of_length_eq_zero (Nat.le_zero.mp h)
    exact ⟨rfl, by simp [zrleRuns]⟩
  | succ fuel ih =>
    cases input with
    | nil => exact ⟨rfl, by simp [zrleRuns]⟩
    | cons byte rest =>
      rw [length_cons] at h
      rw [zrleRuns]
      split
      · rename_i hzero
        subst hzero
        have hpos := zeroCount_pos rest
        have hne : (ZrleRun.zeros (zeroCount (0 :: rest))).expand ≠ [] := by
          rw [ZrleRun.expand, ne_eq, replicate_eq_nil_iff]
          omega
        have hrest := @ih ((0 :: rest).drop (zeroCount (0 :: rest)))
          (by rw [length_drop, length_cons]; omega)
        have := RunsOf.cons hne hrest
        rwa [ZrleRun.expand, ← take_zeroCount, take_append_drop] at this
      · have hne : (ZrleRun.literal ((byte :: rest).take
            (literalCount rest.length rest + 1))).expand ≠ [] := by
          rw [ZrleRun.expand, take_succ_cons]
          exact cons_ne_nil _ _
        have hrest := @ih ((byte :: rest).drop (literalCount rest.length rest + 1))
          (by rw [length_drop, length_cons]; omega)
        have := RunsOf.cons hne hrest
        rwa [ZrleRun.expand, take_append_drop] at this

/-- The loop goes over a run. -/
theorem zrleExpand_run {rest : Bytes} {run : ZrleRun} (hne : run.expand ≠ [])
    (hfits : out.length + run.expand.length ≤ expectedOutputSize)
    (hlt : expectedOutputSize < 2 ^ 32) :
    zrleExpand expectedOutputSize (fuel + 1) out (run.encode ++ rest)
      = zrleExpand expectedOutputSize fuel (out ++ run.expand) rest := by
  have hpos : 0 < run.expand.length := length_pos_iff.mpr hne
  cases run with
  | zeros count =>
    rw [ZrleRun.expand, length_replicate] at hfits hpos
    rw [ZrleRun.encode, cons_append, zrleExpand, readUleb128_appendUleb128 (by omega), ok_bind]
    dsimp only
    rw [require_of (by omega), ok_bind, require_of (by omega), ok_bind, if_pos rfl]
    rfl
  | literal bytes =>
    rw [ZrleRun.expand] at hfits hpos
    rw [ZrleRun.encode, cons_append, append_assoc, zrleExpand,
      readUleb128_appendUleb128 (by omega), ok_bind]
    dsimp only
    rw [require_of (by omega), ok_bind, require_of (by omega), ok_bind,
      if_neg (by decide), if_pos rfl, require_of (by rw [length_append]; omega),
      ok_bind, take_left' rfl, drop_left' rfl]
    rfl

/-- The loop goes over runs. -/
theorem zrleExpand_runs {runs : List ZrleRun} (hruns : RunsOf runs input)
    (hfuel : runs.length ≤ fuel) (hfits : out.length + input.length ≤ expectedOutputSize)
    (hlt : expectedOutputSize < 2 ^ 32) :
    zrleExpand expectedOutputSize fuel out (runs.flatMap ZrleRun.encode) = .ok (out ++ input) := by
  induction runs generalizing fuel out input with
  | nil =>
    obtain rfl := hruns.expand_eq
    cases fuel <;> simp [zrleExpand]
  | cons run runs ih =>
    obtain ⟨fuel, rfl⟩ : ∃ f, fuel = f + 1 := ⟨fuel - 1, by rw [length_cons] at hfuel; omega⟩
    obtain rfl := hruns.expand_eq
    obtain ⟨hrun, hrest⟩ := forall_mem_cons.mp hruns.nonempty
    rw [flatMap_cons, length_append] at hfits
    rw [flatMap_cons, zrleExpand_run hrun (by omega) hlt,
      ih ⟨rfl, hrest⟩ (by simpa using hfuel) (by rw [length_append]; omega),
      flatMap_cons, append_assoc]

theorem length_le_flatMap_encode (runs : List ZrleRun) :
    runs.length ≤ (runs.flatMap ZrleRun.encode).length := by
  induction runs with
  | nil => exact Nat.zero_le _
  | cons run runs ih =>
    have hpos : 0 < run.encode.length := by
      cases run <;> simp [ZrleRun.encode]
    rw [flatMap_cons, length_append, length_cons]
    omega

/-- What `ZrleCompress` gives is always a header and runs that stand for the input. -/
theorem exists_runs_zrleCompress (h : input.length < 2 ^ 32) :
    ∃ runs, RunsOf runs input
      ∧ zrleCompress input = .ok (zrleHeader input.length ++ runs.flatMap ZrleRun.encode) := by
  rw [zrleCompress, require_of h, ok_bind]
  dsimp only
  split
  · rename_i hlong
    by_cases hempty : input = []
    · rw [hempty] at hlong
      simp [zrleRuns, zrleLiteralOnly] at hlong
    · refine ⟨[.literal input], ⟨by simp [ZrleRun.expand], by simpa [ZrleRun.expand] using hempty⟩,
        ?_⟩
      rw [zrleLiteralOnly, if_neg hempty, flatMap_cons, flatMap_nil, append_nil,
        ZrleRun.encode, append_assoc, cons_append]
      rfl
  · exact ⟨_, runsOf_zrleRuns le_rfl, rfl⟩

/-- **Round trip.** -/
theorem zrleDecompress_zrleCompress (h : input.length < 2 ^ 32) :
    ∃ data, zrleCompress input = .ok data ∧ zrleDecompress data input.length = .ok input := by
  obtain ⟨runs, hruns, hcompress⟩ := exists_runs_zrleCompress h
  refine ⟨_, hcompress, ?_⟩
  have hheader : (zrleHeader input.length).length = 5 := by
    rw [zrleHeader, length_cons, length_leBytes]
  have hsize : readLe 4 (zrleHeader input.length ++ runs.flatMap ZrleRun.encode) 1
      = input.length := by
    have := readLe_middle 4 input.length [kZrleCodecId] (runs.flatMap ZrleRun.encode) 1 rfl
      (by norm_num; omega)
    simpa [zrleHeader] using this
  have hcount := length_le_flatMap_encode runs
  rw [zrleDecompress, require_of (by rw [length_append, hheader]; omega), ok_bind,
    require_of (by rfl), ok_bind, require_of hsize, ok_bind,
    drop_left' hheader, zrleExpand_runs hruns (by rw [length_append]; omega)
      (by rw [length_nil]; omega) h, ok_bind, nil_append, require_of rfl]
  rfl

/-- Compression never expands the input by more than the overhead of one literal run. -/
theorem length_zrleCompress_le {data : Bytes} (h : zrleCompress input = .ok data) :
    data.length ≤ input.length + kZrleMaxOverheadBytes := by
  rw [zrleCompress, require_bind] at h
  obtain ⟨hlt, h⟩ := h
  have hdata := Except.ok.inj h
  have hliteral : (zrleLiteralOnly input).length ≤ kZrleMaxOverheadBytes := by
    have := length_appendUleb128_le hlt
    have hheader : (zrleHeader input.length).length = 5 := by
      rw [zrleHeader, length_cons, length_leBytes]
    rw [zrleLiteralOnly, length_append, hheader]
    unfold kZrleMaxOverheadBytes
    split
    · simp
    · rw [length_cons]
      omega
  rw [← hdata]
  split
  · rw [length_append]
    omega
  · omega

/-! ## What is expanded stays within the expected size -/

/-- After any number of rounds the loop holds no more bytes than are expected. -/
theorem length_zrleExpand_le {rounds : ℕ} {data held : Bytes}
    (hout : out.length ≤ expectedOutputSize)
    (h : zrleExpand expectedOutputSize rounds out data = .ok held) :
    held.length ≤ expectedOutputSize := by
  induction rounds generalizing out data with
  | zero =>
    rw [zrleExpand] at h
    rwa [← Except.ok.inj h]
  | succ rounds ih =>
    cases data with
    | nil =>
      have hend : zrleExpand expectedOutputSize (rounds + 1) out [] = .ok out := rfl
      rw [hend] at h
      rwa [← Except.ok.inj h]
    | cons token data =>
      rw [zrleExpand] at h
      obtain ⟨⟨run, rest⟩, -, h⟩ := bind_eq_ok.1 h
      simp only [require_bind] at h
      obtain ⟨-, hfits, h⟩ := h
      split at h
      · refine ih ?_ h
        rw [length_append, length_replicate]
        omega
      · split at h
        · obtain ⟨-, h⟩ := check_bind_eq_ok.1 h
          refine ih ?_ h
          rw [length_append, length_take]
          omega
        · cases h

/-- Compressed bytes expand to the input and take at most eleven bytes more than it; and
whatever bytes are given to `ZrleDecompress`, it throws or returns as many bytes as expected, and
the buffer it returns never held more on the way. -/
theorem zrle_codec (bytes : Bytes) (size : ℕ) :
    (bytes.length < 2 ^ 32 → ∃ data, zrleCompress bytes = .ok data ∧
      zrleDecompress data bytes.length = .ok bytes ∧ data.length ≤ bytes.length + 11) ∧
    (∀ out, zrleDecompress bytes size = .ok out → out.length = size) ∧
    ∀ rounds held, zrleExpand size rounds [] (bytes.drop 5) = .ok held → held.length ≤ size := by
  refine ⟨?_, ?_, ?_⟩
  · intro hlt
    obtain ⟨data, hcompress, hround⟩ := zrleDecompress_zrleCompress hlt
    exact ⟨data, hcompress, hround, length_zrleCompress_le hcompress⟩
  · intro out h
    simp only [zrleDecompress, check_bind_eq_ok] at h
    obtain ⟨-, -, -, h⟩ := h
    obtain ⟨held, -, h⟩ := bind_eq_ok.1 h
    obtain ⟨hsize, h⟩ := check_bind_eq_ok.1 h
    rw [← Except.ok.inj h]
    exact (require_eq_ok _ _).1 hsize
  · intro rounds held h
    have hempty : List.length ([] : Bytes) ≤ size := Nat.zero_le size
    exact length_zrleExpand_le hempty h

/-- Seven zeros and a byte. -/
theorem zrle_codec_zeros : ∃ data, zrleCompress [0, 0, 0, 0, 0, 0, 0, 9] = .ok data ∧
    zrleDecompress data 8 = .ok [0, 0, 0, 0, 0, 0, 0, 9] ∧ data.length ≤ 19 :=
  (zrle_codec [0, 0, 0, 0, 0, 0, 0, 9] 8).1 (by decide)

end ChunkDb
