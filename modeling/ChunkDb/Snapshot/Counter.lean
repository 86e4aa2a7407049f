/-
# The snapshot generation counter

One 64-bit word holds four fields (`snapshot_generation.cpp`): bit 0 is odd while an
artifact is being published, bit 1 records a failed epoch, bits 2 to 17 count the
active guards, and bits 18 to 63 count the completed epochs.  The functions here are
the bodies of the compare-and-swap loops: what they would write for a value they
loaded.  Each lemma says what that does to the fields.
-/
import ChunkDb.Basic

namespace ChunkDb

def kGenerationOdd : UInt64 := 1
def kGenerationFailed : UInt64 := 2
def kGenerationCountOne : UInt64 := 4
def kGenerationEpochStep : UInt64 := (1 : UInt64) <<< 18
def kGenerationCountMask : UInt64 := kGenerationEpochStep - 4

/-! ## The loop bodies -/

/-- What `BeginSnapshotGenerationWrite` writes for the value it loaded, or throws.
(`overflow_error` is a `runtime_error`.) -/
def beginDesired (current : UInt64) : Fallible UInt64 :=
  if current &&& kGenerationFailed ≠ 0
      ∨ (current &&& kGenerationOdd ≠ 0 ∧ current &&& kGenerationCountMask = 0) then
    runtimeError ("snapshot generation is unresolved; reopen the store with RECOVER TABLE or a "
      ++ "restart to complete recovery")
  else if current &&& kGenerationCountMask = kGenerationCountMask
      ∨ current > 0xFFFFFFFFFFFFFFFF - kGenerationEpochStep then
    runtimeError "snapshot generation exhausted; refusing to wrap"
  else .ok ((current + kGenerationCountOne) ||| kGenerationOdd)

/-- The guard is the only one left. -/
def isLastGuard (current : UInt64) : Bool := current &&& kGenerationCountMask == kGenerationCountOne

/-- The epoch has failed. -/
def isFailedEpoch (current : UInt64) : Bool := current &&& kGenerationFailed != 0

/-- What `FinishSnapshotGenerationWrite` writes for the value it loaded, or throws. -/
def finishDesired (current : UInt64) : Fallible UInt64 :=
  if current &&& kGenerationCountMask = 0 then
    logicError "snapshot generation active-writer underflow"
  else
    let desired := current - kGenerationCountOne
    .ok (if isLastGuard current = true ∧ isFailedEpoch current = false then
      (desired + kGenerationEpochStep) &&& ~~~ kGenerationOdd else desired)

/-- What `AbandonSnapshotGenerationWrite` writes for the value it loaded. -/
def abandonDesired (failEpoch : Bool) (current : UInt64) : UInt64 :=
  let desired := if failEpoch then current ||| (kGenerationFailed ||| kGenerationOdd) else current
  if current &&& kGenerationCountMask ≠ 0 then desired - kGenerationCountOne else desired

/-! ## The fields -/

/-- Bit 0: an artifact is being published. -/
def isOddGeneration (counter : UInt64) : Bool := counter.toNat % 2 == 1

/-- Bits 2 to 17: the active guards. -/
def activeGuards (counter : UInt64) : ℕ := counter.toNat / 4 % 2 ^ 16

/-- Bits 18 to 63: the completed epochs. -/
def completedEpochs (counter : UInt64) : ℕ := counter.toNat / 2 ^ 18

theorem toNat_countOne : kGenerationCountOne.toNat = 4 := rfl

theorem toNat_epochStep : kGenerationEpochStep.toNat = 2 ^ 18 := by decide +kernel

theorem toNat_countMask : kGenerationCountMask.toNat = 2 ^ 18 - 4 := by decide +kernel

theorem toNat_and_odd (c : UInt64) : (c &&& kGenerationOdd).toNat = c.toNat % 2 := by
  rw [UInt64.toNat_and]
  exact Nat.and_one_is_mod _

variable {c current desired : UInt64}

theorem and_odd_ne_zero_iff : c &&& kGenerationOdd ≠ 0 ↔ isOddGeneration c = true := by
  rw [ne_eq, ← UInt64.toNat_inj, toNat_and_odd, isOddGeneration, beq_iff_eq]
  change ¬ c.toNat % 2 = 0 ↔ _
  omega

theorem toNat_and_failed (c : UInt64) : (c &&& kGenerationFailed).toNat = c.toNat / 2 % 2 * 2 := by
  have hdiv : (c.toNat &&& 2) / 2 = c.toNat / 2 &&& 1 := by
    have := Nat.and_div_two_pow (a := c.toNat) (b := 2) (n := 1)
    simpa using this
  have hmod : (c.toNat &&& 2) % 2 = 0 := by
    have := Nat.and_mod_two_pow (a := c.toNat) (b := 2) (n := 1)
    simpa using this
  rw [Nat.and_one_is_mod] at hdiv
  rw [UInt64.toNat_and]
  change c.toNat &&& 2 = _
  omega

theorem isFailedEpoch_iff : isFailedEpoch c = true ↔ c.toNat / 2 % 2 = 1 := by
  rw [isFailedEpoch, bne_iff_ne, ne_eq, ← UInt64.toNat_inj, toNat_and_failed]
  change ¬ c.toNat / 2 % 2 * 2 = 0 ↔ _
  omega

theorem toNat_and_mask (c : UInt64) : (c &&& kGenerationCountMask).toNat = activeGuards c * 4 := by
  have hdiv : (c.toNat &&& (2 ^ 18 - 4)) / 4 = c.toNat / 4 &&& (2 ^ 16 - 1) := by
    have := Nat.and_div_two_pow (a := c.toNat) (b := 2 ^ 18 - 4) (n := 2)
    simpa using this
  have hmod : (c.toNat &&& (2 ^ 18 - 4)) % 4 = 0 := by
    have := Nat.and_mod_two_pow (a := c.toNat) (b := 2 ^ 18 - 4) (n := 2)
    simpa using this
  rw [Nat.and_two_pow_sub_one_eq_mod] at hdiv
  rw [UInt64.toNat_and, activeGuards, toNat_countMask]
  omega

theorem and_mask_eq_zero_iff : c &&& kGenerationCountMask = 0 ↔ activeGuards c = 0 := by
  rw [← UInt64.toNat_inj, toNat_and_mask]
  change activeGuards c * 4 = 0 ↔ _
  omega

theorem isLastGuard_iff : isLastGuard c = true ↔ activeGuards c = 1 := by
  rw [isLastGuard, beq_iff_eq, ← UInt64.toNat_inj, toNat_and_mask]
  change activeGuards c * 4 = 4 ↔ _
  omega

theorem and_mask_eq_mask_iff :
    c &&& kGenerationCountMask = kGenerationCountMask ↔ activeGuards c = 2 ^ 16 - 1 := by
  rw [← UInt64.toNat_inj, toNat_and_mask, toNat_countMask]
  omega

theorem toNat_or_odd (c : UInt64) : (c ||| kGenerationOdd).toNat = c.toNat / 2 * 2 + 1 := by
  have hdiv : (c.toNat ||| 1) / 2 = c.toNat / 2 := by
    have := Nat.or_div_two_pow (a := c.toNat) (b := 1) (n := 1)
    simpa using this
  have hmod : (c.toNat ||| 1) % 2 = 1 := by
    have := Nat.or_mod_two_pow (a := c.toNat) (b := 1) (n := 1)
    rw [this, show (2 : ℕ) ^ 1 = 2 from rfl]
    rcases Nat.mod_two_eq_zero_or_one c.toNat with h | h <;> rw [h] <;> rfl
  rw [UInt64.toNat_or]
  change c.toNat ||| 1 = _
  omega

theorem toNat_or_flags (c : UInt64) :
    (c ||| (kGenerationFailed ||| kGenerationOdd)).toNat = c.toNat / 4 * 4 + 3 := by
  have hdiv : (c.toNat ||| 3) / 4 = c.toNat / 4 := by
    have := Nat.or_div_two_pow (a := c.toNat) (b := 3) (n := 2)
    simpa using this
  have hmod : (c.toNat ||| 3) % 4 = 3 := by
    have := Nat.or_mod_two_pow (a := c.toNat) (b := 3) (n := 2)
    have hlt := Nat.mod_lt c.toNat (show 0 < 4 by decide)
    rw [this, show (3 : ℕ) % 2 ^ 2 = 3 from rfl, show (2 : ℕ) ^ 2 = 4 from rfl]
    interval_cases c.toNat % 4 <;> rfl
  rw [UInt64.toNat_or]
  change c.toNat ||| 3 = _
  omega

theorem toNat_and_not_odd (c : UInt64) : (c &&& ~~~ kGenerationOdd).toNat = c.toNat / 2 * 2 := by
  have hdiv : (c.toNat &&& (2 ^ 64 - 2)) / 2 = c.toNat / 2 &&& (2 ^ 63 - 1) := by
    have := Nat.and_div_two_pow (a := c.toNat) (b := 2 ^ 64 - 2) (n := 1)
    simpa using this
  have hmod : (c.toNat &&& (2 ^ 64 - 2)) % 2 = 0 := by
    have := Nat.and_mod_two_pow (a := c.toNat) (b := 2 ^ 64 - 2) (n := 1)
    simpa using this
  have hlt := c.toNat_lt
  rw [Nat.and_two_pow_sub_one_eq_mod, Nat.mod_eq_of_lt (by omega)] at hdiv
  rw [UInt64.toNat_and]
  change c.toNat &&& (2 ^ 64 - 2) = _
  omega

/-- The four fields make up the word. -/
theorem toNat_eq_fields (c : UInt64) :
    c.toNat = completedEpochs c * 2 ^ 18 + activeGuards c * 4 + (isFailedEpoch c).toNat * 2
      + (isOddGeneration c).toNat := by
  have hfailed : (isFailedEpoch c).toNat = c.toNat / 2 % 2 := by
    rcases Nat.mod_two_eq_zero_or_one (c.toNat / 2) with h | h
    · have hnot : ¬ isFailedEpoch c = true := by
        rw [isFailedEpoch_iff]
        omega
      rw [Bool.not_eq_true] at hnot
      rw [hnot, h]
      rfl
    · rw [isFailedEpoch_iff.mpr h, h]
      rfl
  have hodd : (isOddGeneration c).toNat = c.toNat % 2 := by
    unfold isOddGeneration
    rcases Nat.mod_two_eq_zero_or_one c.toNat with h | h <;> rw [h] <;> rfl
  rw [hfailed, hodd, completedEpochs, activeGuards]
  omega

/-- A reader accepts what it collected between two equal even observations of the counter
(`LoadStableReadOnlyChunkDiskSnapshot`). -/
def stableObservation (before after : UInt64) : Bool := before &&& 1 == 0 && before == after

theorem stableObservation_iff {before after : UInt64} :
    stableObservation before after = true ↔ isOddGeneration before = false ∧ before = after := by
  rw [stableObservation, Bool.and_eq_true, beq_iff_eq, beq_iff_eq]
  have hodd := and_odd_ne_zero_iff (c := before)
  rw [← not_iff_not, not_not, Bool.not_eq_true] at hodd
  exact and_congr_left' hodd

/-! ## What the loops do to the fields -/

/-- The word after a step of a guard: the fields are moved one by one. -/
structure CounterFields (counter : UInt64) (epochs guards : ℕ) (failed odd : Bool) : Prop where
  epochs_eq : completedEpochs counter = epochs
  guards_eq : activeGuards counter = guards
  failed_eq : isFailedEpoch counter = failed
  odd_eq : isOddGeneration counter = odd

theorem isFailedEpoch_eq (c : UInt64) : isFailedEpoch c = decide (c.toNat / 2 % 2 = 1) := by
  rw [Bool.eq_iff_iff, isFailedEpoch_iff, decide_eq_true_iff]

/-- The fields of a word, by its number. -/
theorem counterFields_of {word epochs guards : ℕ} {failed odd : Bool} (hword : c.toNat = word)
    (hepochs : word / 2 ^ 18 = epochs) (hguards : word / 4 % 2 ^ 16 = guards)
    (hfailed : word / 2 % 2 = 1 ↔ failed = true) (hodd : word % 2 = 1 ↔ odd = true) :
    CounterFields c epochs guards failed odd := by
  subst hword
  refine ⟨hepochs, hguards, ?_, ?_⟩
  · rw [Bool.eq_iff_iff, isFailedEpoch_iff, hfailed]
  · rw [Bool.eq_iff_iff, isOddGeneration, beq_iff_eq, hodd]

/-- `Begin` counts one guard and publishes odd. -/
theorem beginDesired_eq_ok (h : beginDesired current = .ok desired) :
    isFailedEpoch current = false
      ∧ (isOddGeneration current = true → activeGuards current ≠ 0)
      ∧ activeGuards current + 1 < 2 ^ 16 ∧ completedEpochs current + 1 < 2 ^ 46
      ∧ CounterFields desired (completedEpochs current) (activeGuards current + 1) false true := by
  unfold beginDesired at h
  split at h
  · simp [runtimeError] at h
  · rename_i hresolved
    split at h
    · simp [runtimeError] at h
    · rename_i hroom
      cases h
      rw [not_or, not_and, and_odd_ne_zero_iff, and_mask_eq_zero_iff] at hresolved
      obtain ⟨hfailed, hodd⟩ := hresolved
      rw [not_or, and_mask_eq_mask_iff] at hroom
      obtain ⟨hmax, hepoch⟩ := hroom
      have hf : isFailedEpoch current = false := by
        rw [isFailedEpoch]
        simpa using hfailed
      have hlimit : current.toNat ≤ 2 ^ 64 - 1 - 2 ^ 18 := by
        rw [gt_iff_lt, UInt64.lt_iff_toNat_lt, UInt64.toNat_sub, toNat_epochStep] at hepoch
        change ¬ (2 ^ 64 - 2 ^ 18 + (2 ^ 64 - 1)) % 2 ^ 64 < current.toNat at hepoch
        omega
      have hf' := hf
      rw [isFailedEpoch_eq, decide_eq_false_iff_not] at hf'
      have hcount : activeGuards current < 2 ^ 16 := Nat.mod_lt _ (by decide)
      have hsum : (current + kGenerationCountOne).toNat = current.toNat + 4 := by
        rw [UInt64.toNat_add]
        change (current.toNat + 4) % 2 ^ 64 = _
        omega
      have hword : ((current + kGenerationCountOne) ||| kGenerationOdd).toNat
          = (current.toNat + 4) / 2 * 2 + 1 := by rw [toNat_or_odd, hsum]
      unfold activeGuards completedEpochs at *
      refine ⟨hf, hodd, by omega, by omega, counterFields_of hword (by omega) (by omega) ?_ ?_⟩
      · simp only [Bool.false_eq_true, iff_false]
        omega
      · simp only [iff_true]
        omega

/-- `Finish` of a guard among others, or after a failure, only counts it out. -/
theorem finishDesired_keeps (h : finishDesired current = .ok desired)
    (hkeep : activeGuards current ≠ 1 ∨ isFailedEpoch current = true) :
    activeGuards current ≠ 0
      ∧ CounterFields desired (completedEpochs current) (activeGuards current - 1)
          (isFailedEpoch current) (isOddGeneration current) := by
  unfold finishDesired at h
  split at h
  · simp [logicError] at h
  · rename_i hsome
    rw [and_mask_eq_zero_iff] at hsome
    have hnot : ¬ (isLastGuard current = true ∧ isFailedEpoch current = false) := by
      rw [isLastGuard_iff]
      rcases hkeep with hk | hk
      · exact fun hc => hk hc.1
      · exact fun hc => by rw [hk] at hc; cases hc.2
    dsimp only at h
    rw [if_neg hnot] at h
    cases h
    refine ⟨hsome, ?_⟩
    have hlt := current.toNat_lt
    unfold activeGuards at hsome
    have hword : (current - kGenerationCountOne).toNat = current.toNat - 4 := by
      rw [UInt64.toNat_sub]
      change (2 ^ 64 - 4 + current.toNat) % 2 ^ 64 = _
      omega
    refine counterFields_of hword ?_ ?_ ?_ ?_
    · rw [completedEpochs]
      omega
    · rw [activeGuards]
      omega
    · rw [isFailedEpoch_iff]
      omega
    · rw [isOddGeneration, beq_iff_eq]
      omega

/-- `Finish` of the last guard completes the epoch and publishes even. -/
theorem finishDesired_last (h : finishDesired current = .ok desired)
    (hlast : activeGuards current = 1) (hfailed : isFailedEpoch current = false)
    (hroom : completedEpochs current + 1 < 2 ^ 46) :
    CounterFields desired (completedEpochs current + 1) 0 false false := by
  unfold finishDesired at h
  split at h
  · simp [logicError] at h
  · dsimp only at h
    rw [if_pos ⟨isLastGuard_iff.mpr hlast, hfailed⟩] at h
    cases h
    have hlt := current.toNat_lt
    rw [isFailedEpoch_eq, decide_eq_false_iff_not] at hfailed
    unfold activeGuards at hlast
    unfold completedEpochs at hroom ⊢
    have hword : ((current - kGenerationCountOne + kGenerationEpochStep) &&& ~~~ kGenerationOdd).toNat
        = (current.toNat - 4 + 2 ^ 18) / 2 * 2 := by
      rw [toNat_and_not_odd, UInt64.toNat_add, UInt64.toNat_sub, toNat_epochStep, toNat_countOne]
      omega
    refine counterFields_of hword (by omega) (by omega) ?_ ?_ <;>
      simp only [Bool.false_eq_true, iff_false] <;> omega

/-- `Abandon` counts the guard out and, unless an outer guard goes on, fails the epoch. -/
theorem abandonDesired_fields (failEpoch : Bool) (hsome : activeGuards current ≠ 0) :
    CounterFields (abandonDesired failEpoch current) (completedEpochs current)
      (activeGuards current - 1) (isFailedEpoch current || failEpoch)
      (isOddGeneration current || failEpoch) := by
  have hlt := current.toNat_lt
  have hword : (abandonDesired failEpoch current).toNat
      = (if failEpoch then current.toNat / 4 * 4 + 3 else current.toNat) - 4 := by
    unfold abandonDesired
    rw [if_pos (by rw [ne_eq, and_mask_eq_zero_iff]; exact hsome), UInt64.toNat_sub]
    unfold activeGuards at hsome
    cases failEpoch with
    | true =>
      rw [if_pos rfl, if_pos rfl, toNat_or_flags]
      change (2 ^ 64 - 4 + (current.toNat / 4 * 4 + 3)) % 2 ^ 64 = _
      omega
    | false =>
      rw [if_neg (by simp), if_neg (by simp)]
      change (2 ^ 64 - 4 + current.toNat) % 2 ^ 64 = _
      omega
  unfold activeGuards at hsome
  cases failEpoch with
  | true =>
    rw [if_pos rfl] at hword
    rw [Bool.or_true, Bool.or_true]
    unfold completedEpochs activeGuards
    refine counterFields_of hword (by omega) (by omega) ?_ ?_ <;> simp only [iff_true] <;> omega
  | false =>
    rw [if_neg (by simp)] at hword
    rw [Bool.or_false, Bool.or_false]
    refine counterFields_of hword ?_ ?_ ?_ ?_
    · rw [completedEpochs]
      omega
    · rw [activeGuards]
      omega
    · rw [isFailedEpoch_iff]
      omega
    · rw [isOddGeneration, beq_iff_eq]
      omega

end ChunkDb
