/-
# The version clock

A store takes its version tokens from a 64-bit counter, below a ceiling that is on disk
before a token at or above the last one is given out (`version_clock.cpp`).  Here are the
record of the ceiling, how a store opens its clock, and `NextChunkVersion` as one thread
calls it.  The counter is advanced before the ceiling is looked at, so it goes on after
the version space is exhausted, and wraps (`calls_spec_iff`).
-/
import ChunkDb.Crc32

open LittleEndian List

namespace ChunkDb

def kVersionClockReservationBatch : ℕ := 16384
def kMaxUInt64 : ℕ := 2 ^ 64 - 1

/-! ## Records -/

/-- `kVersionClockMagic`: "CKVR". -/
def kVersionClockMagic : Bytes := [0x43, 0x4B, 0x56, 0x52]
def kVersionClockRecordSize : ℕ := 16

/-- `kInitializedMarkerMagic`: "CKID". -/
def kInitializedMarkerMagic : Bytes := [0x43, 0x4B, 0x49, 0x44]
def kInitializedMarkerRecordSize : ℕ := 16

/-- A magic, a number and a checksum: the form of both records. -/
def clockRecord (magic : Bytes) (value : ℕ) : Bytes :=
  magic ++ leBytes 8 value ++ leBytes 4 (crc32 (magic ++ leBytes 8 value))

/-- `SerializeVersionClockRecord`. -/
def serializeVersionClockRecord (ceiling : ℕ) : Bytes := clockRecord kVersionClockMagic ceiling

/-- `TryParseVersionClockRecord`. -/
def tryParseVersionClockRecord (bytes : Bytes) : Option ℕ :=
  if bytes.length ≠ kVersionClockRecordSize then none
  else if bytes.take 4 ≠ kVersionClockMagic then none
  else if readLe 4 bytes 12 ≠ crc32 (bytes.take 12) then none
  else if readLe 8 bytes 4 = 0 then none
  else some (readLe 8 bytes 4)

/-- `SerializeInitializedMarker`. -/
def serializeInitializedMarker : Bytes := clockRecord kInitializedMarkerMagic 1

/-- `IsValidInitializedMarker`. -/
def isValidInitializedMarker (bytes : Bytes) : Bool :=
  bytes.length == kInitializedMarkerRecordSize && bytes.take 4 == kInitializedMarkerMagic
    && readLe 8 bytes 4 == 1 && readLe 4 bytes 12 == crc32 (bytes.take 12)

theorem tryParseVersionClockRecord_bounds {bytes : Bytes} {ceiling : ℕ}
    (h : tryParseVersionClockRecord bytes = some ceiling) : 0 < ceiling ∧ ceiling ≤ kMaxUInt64 := by
  unfold tryParseVersionClockRecord at h
  split_ifs at h with _ _ _ hzero
  have hlt := readLe_lt 8 bytes 4
  rw [Option.some.inj h] at hzero hlt
  unfold kMaxUInt64
  omega

/-! ## Opening -/

/-- The files the clock of a store keeps: `chunkdb.version` and `.chunkdb.initialized`. -/
structure ClockFiles where
  record : Option Bytes
  marker : Option Bytes
  deriving DecidableEq

/-- What the startup inventory says of the store. -/
structure Inventory where
  storePreexisting : Bool
  scanFailed : Bool
  deriving DecidableEq

/-- The clock in memory: the next token and the ceiling. -/
structure VersionClock where
  clock : ℕ
  ceiling : ℕ
  deriving DecidableEq, Repr

/-- Where the clock of a new store starts. -/
def firstVersion (initialVersionFloor : ℕ) : ℕ := max 1 (min initialVersionFloor (kMaxUInt64 - 1))

/-- `InitializeVersionClock` of a writer: the clock, and the files it leaves. -/
def initializeVersionClock (files : ClockFiles) (inventory : Inventory)
    (initialVersionFloor : ℕ) : Fallible (VersionClock × ClockFiles) := do
  require (∀ marker ∈ files.marker, isValidInitializedMarker marker = true)
    ⟨.runtimeError, "initialized-store marker is invalid"⟩
  match files.record with
  | none =>
    require (files.marker = none)
      ⟨.runtimeError, "version bookkeeping is missing but the valid initialized-store marker proves "
        ++ "that persisted version tokens were previously issued"⟩
    require (inventory.scanFailed = false)
      ⟨.runtimeError, "both version bookkeeping records are missing; startup inventory is "
        ++ "unavailable, so this cannot be proved a new store"⟩
    require (inventory.storePreexisting = false)
      ⟨.runtimeError, "both version bookkeeping records are missing; chunk artifacts or a capped "
        ++ "startup scan prevent proving this is a new store"⟩
    let first := firstVersion initialVersionFloor
    return (⟨first, first⟩, ⟨some (serializeVersionClockRecord first),
      some serializeInitializedMarker⟩)
  | some bytes =>
    match tryParseVersionClockRecord bytes with
    | none => runtimeError "version bookkeeping is malformed, truncated, oversized, or corrupt"
    | some ceiling =>
      return (⟨ceiling, ceiling⟩, ⟨files.record, some (files.marker.getD serializeInitializedMarker)⟩)

theorem firstVersion_bounds (floor : ℕ) : 0 < firstVersion floor ∧ firstVersion floor < kMaxUInt64 := by
  unfold firstVersion kMaxUInt64
  omega

/-- An opened clock starts at its ceiling. -/
theorem initializeVersionClock_spec {files opened : ClockFiles} {inventory : Inventory} {floor : ℕ}
    {clock : VersionClock}
    (h : initializeVersionClock files inventory floor = .ok (clock, opened)) :
    clock.clock = clock.ceiling ∧ 0 < clock.clock ∧ clock.clock ≤ kMaxUInt64 := by
  rw [initializeVersionClock, check_bind_eq_ok] at h
  obtain ⟨_, h⟩ := h
  have hfirst := firstVersion_bounds floor
  split at h
  · simp only [check_bind_eq_ok] at h
    obtain ⟨_, _, _, h⟩ := h
    cases h
    exact ⟨rfl, hfirst.1, hfirst.2.le⟩
  · split at h
    · cases h
    · rename_i ceiling hceiling
      cases h
      exact ⟨rfl, tryParseVersionClockRecord_bounds hceiling⟩

/-! ## Taking tokens -/

/-- The ceiling `ExtendVersionClockCeilingLocked` writes; none when the space is exhausted. -/
def extendedCeiling (ceiling minimumExclusive : ℕ) : Option ℕ :=
  if ceiling ≤ minimumExclusive then
    if minimumExclusive > kMaxUInt64 - kVersionClockReservationBatch then none
    else some (minimumExclusive + kVersionClockReservationBatch)
  else some ceiling

/-- How a call of `NextChunkVersion` ends. -/
inductive NextOutcome
  | token (version : ℕ)
  /-- `overflow_error`: "chunk version clock exhausted". -/
  | exhausted
  /-- The record could not be written. -/
  | notReserved
  deriving DecidableEq, Repr

namespace VersionClock

/-- `NextChunkVersion`, called by one thread; `written` says whether a record it writes is
replaced. -/
def nextChunkVersion (clock : VersionClock) (written : Bool) : NextOutcome × VersionClock :=
  let candidate := clock.clock
  -- `fetch_add` on 64 bits, before anything is checked
  let fetched := { clock with clock := (candidate + 1) % 2 ^ 64 }
  if candidate < clock.ceiling then (.token candidate, fetched)
  else
    match extendedCeiling clock.ceiling candidate with
    | none => (.exhausted, fetched)
    | some ceiling =>
      if written then (.token candidate, { fetched with ceiling }) else (.notReserved, fetched)

/-- A sequence of calls, in one lifetime. -/
def calls : VersionClock → List Bool → List NextOutcome
  | _, [] => []
  | clock, written :: rest =>
    (clock.nextChunkVersion written).1 :: calls (clock.nextChunkVersion written).2 rest

/-- The clock after a sequence of calls. -/
def afterCalls (clock : VersionClock) (writes : List Bool) : VersionClock :=
  writes.foldl (fun clock written => (clock.nextChunkVersion written).2) clock

/-- A clock whose ceiling a record can hold. -/
structure Sound (clock : VersionClock) : Prop where
  ceiling_pos : 0 < clock.ceiling
  ceiling_le : clock.ceiling ≤ kMaxUInt64

variable {clock : VersionClock}

theorem extendedCeiling_spec {ceiling minimum extended : ℕ} (hle : ceiling ≤ minimum)
    (h : extendedCeiling ceiling minimum = some extended) :
    extended ≤ kMaxUInt64 ∧ ceiling ≤ extended := by
  unfold extendedCeiling kVersionClockReservationBatch kMaxUInt64 at *
  rw [if_pos hle] at h
  split at h
  · exact nomatch h
  · rw [← Option.some.inj h]
    omega

/-- One call: the counter advances, and a token is the counter's value before. -/
theorem nextChunkVersion_spec (hsound : clock.Sound) (written : Bool) :
    (clock.nextChunkVersion written).2.clock = (clock.clock + 1) % 2 ^ 64
      ∧ (clock.nextChunkVersion written).2.Sound
      ∧ (∀ token, (clock.nextChunkVersion written).1 = .token token → token = clock.clock)
      ∧ ((clock.nextChunkVersion written).1 = .exhausted ↔ clock.ceiling ≤ clock.clock
        ∧ kMaxUInt64 - kVersionClockReservationBatch < clock.clock)
      ∧ ((clock.nextChunkVersion written).1 = .exhausted →
        (clock.nextChunkVersion written).2.ceiling = clock.ceiling) := by
  unfold nextChunkVersion
  dsimp only
  by_cases hlt : clock.clock < clock.ceiling
  · rw [if_pos hlt]
    refine ⟨rfl, ⟨hsound.ceiling_pos, hsound.ceiling_le⟩, fun token h => ?_, ?_, nofun⟩
    · exact (NextOutcome.token.inj h).symm
    · exact iff_of_false nofun (fun h => absurd h.1 (by omega))
  · rw [if_neg hlt]
    cases hextended : extendedCeiling clock.ceiling clock.clock with
    | none =>
      refine ⟨rfl, ⟨hsound.ceiling_pos, hsound.ceiling_le⟩, nofun, ?_, fun _ => rfl⟩
      refine iff_of_true rfl ⟨by omega, ?_⟩
      unfold extendedCeiling at hextended
      rw [if_pos (by omega)] at hextended
      by_contra hle
      rw [if_neg (by omega)] at hextended
      exact nomatch hextended
    | some extended =>
      obtain ⟨hmax, hceiling⟩ := extendedCeiling_spec (by omega) hextended
      have hroom : ¬ (clock.ceiling ≤ clock.clock
          ∧ kMaxUInt64 - kVersionClockReservationBatch < clock.clock) := by
        rintro ⟨hle, hgt⟩
        unfold extendedCeiling at hextended
        rw [if_pos hle, if_pos hgt] at hextended
        exact nomatch hextended
      dsimp only
      split
      · refine ⟨rfl, ⟨by have := hsound.ceiling_pos; exact this.trans_le hceiling, hmax⟩,
          fun token h => (NextOutcome.token.inj h).symm, ?_, nofun⟩
        exact iff_of_false nofun hroom
      · refine ⟨rfl, ⟨hsound.ceiling_pos, hsound.ceiling_le⟩, nofun, ?_, nofun⟩
        exact iff_of_false nofun hroom

theorem calls_append (writes rest : List Bool) :
    clock.calls (writes ++ rest) = clock.calls writes ++ (clock.afterCalls writes).calls rest := by
  induction writes generalizing clock with
  | nil => rfl
  | cons written writes ih =>
    rw [cons_append, calls, ih]
    rfl

/-- After any number of calls the counter has advanced by as many, modulo 2 ^ 64. -/
theorem afterCalls_spec (hsound : clock.Sound) (hlt : clock.clock < 2 ^ 64) (writes : List Bool) :
    (clock.afterCalls writes).clock = (clock.clock + writes.length) % 2 ^ 64
      ∧ (clock.afterCalls writes).Sound := by
  induction writes generalizing clock with
  | nil => exact ⟨(Nat.mod_eq_of_lt hlt).symm, hsound⟩
  | cons written writes ih =>
    obtain ⟨hclock, hnext, _⟩ := nextChunkVersion_spec hsound written
    obtain ⟨hafter, hsound⟩ := ih hnext (by rw [hclock]; exact Nat.mod_lt _ (by norm_num))
    refine ⟨?_, hsound⟩
    change ((clock.nextChunkVersion written).2.afterCalls writes).clock = _
    rw [hafter, hclock, length_cons]
    omega

/-- A call that finds the space exhausted gives no token. -/
def NoTokenAfterExhausted (outcomes : List NextOutcome) : Prop :=
  outcomes.Pairwise fun earlier later => earlier = .exhausted → ∀ version, later ≠ .token version

/-- Every token is above those before it. -/
def TokensIncrease (outcomes : List NextOutcome) : Prop :=
  outcomes.Pairwise fun earlier later => ∀ before after,
    earlier = .token before → later = .token after → before < after

/-- While the counter does not wrap, tokens are in the range it goes over, and once the space
is exhausted there are none. -/
theorem tokens_of_no_wrap (hsound : clock.Sound) {writes : List Bool}
    (hwrap : clock.clock + writes.length ≤ 2 ^ 64) :
    (∀ version, .token version ∈ clock.calls writes → clock.clock ≤ version)
      ∧ (clock.ceiling ≤ clock.clock → kMaxUInt64 - kVersionClockReservationBatch < clock.clock →
        ∀ version, .token version ∉ clock.calls writes) := by
  induction writes generalizing clock with
  | nil => exact ⟨nofun, fun _ _ _ => not_mem_nil⟩
  | cons written writes ih =>
    rw [length_cons] at hwrap
    obtain ⟨hclock, hnext, htoken, hexhausted, hkept⟩ := nextChunkVersion_spec hsound written
    by_cases hlast : clock.clock + 1 = 2 ^ 64
    · -- the last call before the counter wraps
      obtain rfl : writes = [] := eq_nil_of_length_eq_zero (by omega)
      refine ⟨fun version h => ?_, fun hle hgt version h => ?_⟩
      · exact (htoken version (mem_singleton.mp h).symm).ge
      · have := (mem_singleton.mp h).trans (hexhausted.mpr ⟨hle, hgt⟩)
        exact nomatch this
    · have hclock : (clock.nextChunkVersion written).2.clock = clock.clock + 1 := by
        rw [hclock]
        exact Nat.mod_eq_of_lt (by omega)
      obtain ⟨hrange, hnone⟩ := ih hnext (by rw [hclock]; omega)
      refine ⟨fun version h => ?_, fun hle hgt version h => ?_⟩
      · rcases mem_cons.mp h with h | h
        · exact (htoken version h.symm).ge
        · have := hrange version h
          omega
      · have hstop := hexhausted.mpr ⟨hle, hgt⟩
        rcases mem_cons.mp h with h | h
        · exact nomatch h.trans hstop
        · refine hnone ?_ ?_ version h <;> rw [hclock]
          · rw [hkept hstop]
            omega
          · omega

/-- Where the counter does not wrap, exhaustion is permanent and tokens increase. -/
theorem calls_of_no_wrap (hsound : clock.Sound) {writes : List Bool}
    (hwrap : clock.clock + writes.length ≤ 2 ^ 64) :
    NoTokenAfterExhausted (clock.calls writes) ∧ TokensIncrease (clock.calls writes) := by
  induction writes generalizing clock with
  | nil => exact ⟨.nil, .nil⟩
  | cons written writes ih =>
    rw [length_cons] at hwrap
    obtain ⟨hclock, hnext, htoken, hexhausted, hkept⟩ := nextChunkVersion_spec hsound written
    by_cases hlast : clock.clock + 1 = 2 ^ 64
    · obtain rfl : writes = [] := eq_nil_of_length_eq_zero (by omega)
      exact ⟨pairwise_singleton _ _, pairwise_singleton _ _⟩
    · have hclock : (clock.nextChunkVersion written).2.clock = clock.clock + 1 := by
        rw [hclock]
        exact Nat.mod_eq_of_lt (by omega)
      have hrest : (clock.nextChunkVersion written).2.clock + writes.length ≤ 2 ^ 64 := by
        rw [hclock]
        omega
      obtain ⟨hpermanent, hincrease⟩ := ih hnext hrest
      obtain ⟨hrange, hnone⟩ := tokens_of_no_wrap hnext hrest
      refine ⟨pairwise_cons.mpr ⟨?_, hpermanent⟩, pairwise_cons.mpr ⟨?_, hincrease⟩⟩
      · rintro later hlater hstop version rfl
        obtain ⟨hle, hgt⟩ := hexhausted.mp hstop
        refine hnone ?_ ?_ version hlater <;> rw [hclock]
        · rw [hkept hstop]
          omega
        · omega
      · rintro later hlater before after hbefore rfl
        have hge := hrange after hlater
        have := htoken before hbefore
        omega

/-- Where the counter wraps, it does so on a call that finds the space exhausted, and the next
call gives token 0. -/
theorem calls_of_wrap (hsound : clock.Sound) (hpos : 0 < clock.clock) (hle : clock.clock ≤ kMaxUInt64)
    {writes : List Bool} (hwrap : 2 ^ 64 < clock.clock + writes.length) :
    ¬ NoTokenAfterExhausted (clock.calls writes) := by
  have hmax : kMaxUInt64 = 2 ^ 64 - 1 := rfl
  obtain ⟨first, last, wrapped, rest, rfl, hfirst⟩ : ∃ first last wrapped rest,
      writes = first ++ (last :: wrapped :: rest) ∧ first.length = 2 ^ 64 - 1 - clock.clock := by
    have hsplit := take_append_drop (2 ^ 64 - 1 - clock.clock) writes
    have hdrop : (writes.drop (2 ^ 64 - 1 - clock.clock)).length
        = writes.length - (2 ^ 64 - 1 - clock.clock) := length_drop
    have htake : (writes.take (2 ^ 64 - 1 - clock.clock)).length = 2 ^ 64 - 1 - clock.clock := by
      rw [length_take]
      omega
    match hrest : writes.drop (2 ^ 64 - 1 - clock.clock) with
    | [] | [_] =>
      rw [hrest] at hdrop
      simp only [length_nil, length_singleton] at hdrop
      omega
    | last :: wrapped :: rest =>
      rw [hrest] at hsplit
      exact ⟨_, last, wrapped, rest, hsplit.symm, htake⟩
  obtain ⟨hclock, hafter⟩ := afterCalls_spec hsound (by omega : clock.clock < 2 ^ 64) first
  rw [hfirst, show clock.clock + (2 ^ 64 - 1 - clock.clock) = 2 ^ 64 - 1 by omega,
    Nat.mod_eq_of_lt (by norm_num)] at hclock
  have hceiling := hafter.ceiling_le
  -- the call that takes the last value of the counter
  obtain ⟨hwrapped, hsound', _, hexhausted, _⟩ := nextChunkVersion_spec hafter last
  have hstop := hexhausted.mpr (by
    rw [hclock]
    unfold kMaxUInt64 kVersionClockReservationBatch at *
    omega)
  rw [hclock] at hwrapped
  have hzero : (((clock.afterCalls first).nextChunkVersion last).2.nextChunkVersion wrapped).1
      = .token 0 := by
    have hpos := hsound'.ceiling_pos
    have hclock0 : ((clock.afterCalls first).nextChunkVersion last).2.clock = 0 := hwrapped
    rw [nextChunkVersion]
    dsimp only
    rw [hclock0, if_pos hpos]
  intro hpermanent
  rw [calls_append, calls, calls, hstop, hzero, NoTokenAfterExhausted, pairwise_append] at hpermanent
  exact (pairwise_cons.mp hpermanent.2.1).1 _ mem_cons_self rfl 0 rfl

end VersionClock

/-- In a lifetime of a store, exhaustion of the version space is permanent and every token is
above those before it exactly as long as the counter does not wrap. -/
theorem calls_spec_iff {files opened : ClockFiles} {inventory : Inventory} {floor : ℕ}
    {clock : VersionClock}
    (h : initializeVersionClock files inventory floor = .ok (clock, opened)) (writes : List Bool) :
    VersionClock.NoTokenAfterExhausted (clock.calls writes)
        ∧ VersionClock.TokensIncrease (clock.calls writes)
      ↔ clock.clock + writes.length ≤ 2 ^ 64 := by
  obtain ⟨heq, hpos, hle⟩ := initializeVersionClock_spec h
  have hsound : clock.Sound := ⟨heq ▸ hpos, heq ▸ hle⟩
  constructor
  · rintro ⟨hpermanent, _⟩
    by_contra hwrap
    exact VersionClock.calls_of_wrap hsound hpos hle (not_le.mp hwrap) hpermanent
  · exact VersionClock.calls_of_no_wrap hsound

/-- A new store takes its first tokens in order. -/
theorem calls_new_store :
    ∃ clock opened, initializeVersionClock ⟨none, none⟩ ⟨false, false⟩ 0 = .ok (clock, opened)
      ∧ VersionClock.TokensIncrease (clock.calls [true, false, true]) := by
  have hopen : initializeVersionClock ⟨none, none⟩ ⟨false, false⟩ 0
      = .ok (⟨1, 1⟩, ⟨some (serializeVersionClockRecord 1), some serializeInitializedMarker⟩) := rfl
  exact ⟨_, _, hopen, ((calls_spec_iff hopen [true, false, true]).mpr (by decide)).2⟩

/-- A store whose ceiling is the largest there is: the first call finds the space exhausted,
and the second gives token 0. -/
theorem calls_last_ceiling :
    ∃ clock opened, initializeVersionClock
        ⟨some (serializeVersionClockRecord (2 ^ 64 - 1)), some serializeInitializedMarker⟩
        ⟨true, false⟩ 0 = .ok (clock, opened)
      ∧ clock.calls [true, true] = [.exhausted, .token 0] := by
  refine ⟨⟨2 ^ 64 - 1, 2 ^ 64 - 1⟩, ⟨some (serializeVersionClockRecord (2 ^ 64 - 1)),
    some serializeInitializedMarker⟩, ?_, by decide⟩
  decide +kernel

end ChunkDb
