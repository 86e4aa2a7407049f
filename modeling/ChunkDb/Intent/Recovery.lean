/-
# Recovering from pending intents

A writer that opens a store resolves the intents a crash left: it takes the WALs of every
rollback intent back to their boundaries, first those of conditional intents, then those
of transactions in the order of their versions (`RecoverConditionalRollbackIntents`,
`RecoverTransactionIntents`).  A read-only store leaves the files alone and replays no
more of a WAL than the smallest boundary allows.

Temporary files of intents are left out; a directory holds one file of a name.
-/
import ChunkDb.ChunkRefresh

open List Function Option

namespace ChunkDb

open ReplayLimit ChunkLoader

/-- The files of a store: images and WALs by chunk, conditional intents by the chunk whose WAL
they name, and transaction intents by the version in their name, as the directory lists them. -/
structure StoreFiles where
  images : ChunkCoord → Option Bytes
  wals : ChunkCoord → Option Bytes
  conditionals : List (ChunkCoord × Bytes)
  transactions : List (ℕ × Bytes)
  conditionals_nodup : (conditionals.map Prod.fst).Nodup

/-- The name of a transaction intent. -/
def txnIntentName (version : ℕ) : String := "txn-" ++ toString version ++ ".rollback"

/-! ## What a writer does -/

/-- A WAL taken back to a boundary. -/
def rollbackWal (missing shorter : String) (wal : Option Bytes) (boundary : ℕ) :
    Fallible (Option Bytes) :=
  match wal with
  | none => if boundary ≠ 0 then runtimeError missing else .ok none
  | some bytes =>
    if bytes.length < boundary then runtimeError shorter
    else if boundary = 0 then .ok none
    else .ok (some (bytes.take boundary))

/-- The WALs, with the one of a chunk taken back. -/
def rollbackIn (missing shorter : String) (wals : ChunkCoord → Option Bytes) (coord : ChunkCoord)
    (boundary : ℕ) : Fallible (ChunkCoord → Option Bytes) :=
  (rollbackWal missing shorter (wals coord) boundary).map (update wals coord)

/-- One round of `RecoverConditionalRollbackIntents`. -/
def recoverConditional (wals : ChunkCoord → Option Bytes) (intent : ChunkCoord × Bytes) :
    Fallible (ChunkCoord → Option Bytes) :=
  match tryParseConditionalIntent intent.2 with
  | none => runtimeError ("invalid conditional rollback intent: " ++ intent.1.text)
  | some (.committed, _) => .ok wals
  | some (.rollback, committedSize) =>
    rollbackIn ("WAL required by conditional rollback intent is missing: " ++ intent.1.text)
      ("WAL is shorter than the committed rollback boundary for " ++ intent.1.text) wals intent.1
      committedSize

/-- An intent as `RecoverTransactionIntents` checks it before any WAL changes. -/
def checkedTxnIntent (intent : ℕ × Bytes) : Fallible TxnIntent :=
  match tryParseTxnIntent intent.2 with
  | none => runtimeError ("invalid transaction intent: " ++ txnIntentName intent.1)
  | some parsed =>
    if parsed.version ≠ intent.1 then
      runtimeError ("invalid transaction intent: " ++ txnIntentName intent.1)
    else .ok parsed

/-- A WAL of an uncommitted transaction goes back to its boundary. -/
def recoverTxnEntry (version : ℕ) (wals : ChunkCoord → Option Bytes) (entry : TxnIntentEntry) :
    Fallible (ChunkCoord → Option Bytes) :=
  rollbackIn ("WAL required by transaction intent " ++ txnIntentName version ++ " is missing")
    ("WAL is shorter than the boundary transaction intent " ++ txnIntentName version ++ " records")
    wals entry.coord entry.walBoundary

/-- One round of `RecoverTransactionIntents`. -/
def recoverTxn (wals : ChunkCoord → Option Bytes) (intent : TxnIntent) :
    Fallible (ChunkCoord → Option Bytes) :=
  match intent.state with
  | .rollback => intent.entries.foldlM (recoverTxnEntry intent.version) wals
  | .committed => .ok wals

namespace StoreFiles

/-- `RecoverConditionalRollbackIntents`. -/
def recoverConditionalRollbackIntents (files : StoreFiles) : Fallible StoreFiles := do
  let wals ← files.conditionals.foldlM recoverConditional files.wals
  return { files with wals, conditionals := [], conditionals_nodup := nodup_nil }

/-- `RecoverTransactionIntents`. -/
def recoverTransactionIntents (files : StoreFiles) : Fallible StoreFiles := do
  let intents ← (files.transactions.insertionSort (·.1 ≤ ·.1)).mapM checkedTxnIntent
  let wals ← intents.foldlM recoverTxn files.wals
  return { files with wals, transactions := [] }

/-- Recovery of the intents, in the order of the constructor of a store. -/
def recoverIntents (files : StoreFiles) : Fallible StoreFiles :=
  files.recoverConditionalRollbackIntents >>= recoverTransactionIntents

/-- What a read-only store finds for a chunk. -/
def snapshot (files : StoreFiles) (coord : ChunkCoord)
    (generation : SnapshotGenerationObservation) : ChunkDiskSnapshot where
  image := files.images coord
  wal := files.wals coord
  intent := (files.conditionals.find? (·.1 = coord)).map Prod.snd
  txnIntents := (files.transactions.insertionSort fun a b =>
    txnIntentName a.1 ≤ txnIntentName b.1).map Prod.snd
  generation := generation

end StoreFiles

/-! ## Boundaries one after another -/

/-- What is left of a WAL below a boundary. -/
def cutWal : Option Bytes → Option ℕ → Option Bytes
  | wal, none => wal
  | none, some _ => none
  | some bytes, some boundary => if boundary = 0 then none else some (bytes.take boundary)

/-- A boundary that a WAL reaches. -/
def WalReaches : Option Bytes → Option ℕ → Prop
  | _, none => True
  | none, some boundary => boundary = 0
  | some bytes, some boundary => boundary ≤ bytes.length

theorem rollbackWal_eq_ok {missing shorter : String} {wal next : Option Bytes} {boundary : ℕ}
    (h : rollbackWal missing shorter wal boundary = .ok next) :
    WalReaches wal (some boundary) ∧ next = cutWal wal (some boundary) := by
  unfold rollbackWal at h
  split at h
  · split at h
    · cases h
    · rename_i hzero
      exact ⟨not_not.mp hzero, (Except.ok.inj h).symm⟩
  · split at h
    · cases h
    · rename_i hlength
      rw [← apply_ite Except.ok] at h
      exact ⟨Nat.le_of_not_lt hlength, (Except.ok.inj h).symm⟩

/-- A WAL that was taken back to one boundary and then to another is cut at the lower one. -/
theorem rollbackWal_cutWal {missing shorter : String} {wal next : Option Bytes} {lower : Option ℕ}
    {boundary : ℕ} (hreaches : WalReaches wal lower)
    (h : rollbackWal missing shorter (cutWal wal lower) boundary = .ok next) :
    next = cutWal wal (lowerBoundary lower boundary)
      ∧ WalReaches wal (lowerBoundary lower boundary) := by
  obtain ⟨hreach, rfl⟩ := rollbackWal_eq_ok h
  cases lower with
  | none =>
    rw [lowerBoundary, getD_none, Nat.min_self]
    cases wal <;> exact ⟨rfl, hreach⟩
  | some m =>
    rw [lowerBoundary, getD_some]
    cases wal with
    | none => exact ⟨rfl, (congrArg (min m) hreach).trans (Nat.min_zero m)⟩
    | some bytes =>
      by_cases hm : m = 0
      · rw [show cutWal (some bytes) (some m) = none from if_pos hm] at hreach ⊢
        obtain rfl : boundary = 0 := hreach
        rw [Nat.min_zero, cutWal, cutWal, if_pos rfl]
        exact ⟨rfl, Nat.zero_le _⟩
      · rw [show cutWal (some bytes) (some m) = some (bytes.take m) from if_neg hm] at hreach ⊢
        change boundary ≤ (bytes.take m).length at hreach
        rw [length_take_of_le hreaches] at hreach
        rw [Nat.min_eq_right hreach, cutWal, cutWal, take_take, Nat.min_eq_left hreach]
        exact ⟨rfl, hreach.trans hreaches⟩

/-- The WAL of a chunk in a state where boundaries as low as `lower` were applied to it. -/
def Lowered (start : Option Bytes) (lower : Option ℕ) (wal : Option Bytes) : Prop :=
  wal = cutWal start lower ∧ WalReaches start lower

theorem lowered_start (start : Option Bytes) : Lowered start none start := ⟨rfl, trivial⟩

section Lowered

variable {start : Option Bytes} {lower : Option ℕ} {wals next : ChunkCoord → Option Bytes}
  {coord : ChunkCoord}

/-- A boundary of this chunk lowers it, one of another chunk does not. -/
theorem Lowered.rollbackIn {missing shorter : String} {named : ChunkCoord} {boundary : ℕ}
    (h : Lowered start lower (wals coord))
    (hnext : rollbackIn missing shorter wals named boundary = .ok next) :
    Lowered start (if named = coord then lowerBoundary lower boundary else lower) (next coord) := by
  obtain ⟨wal, hwal, rfl⟩ := Fallible.map_eq_ok hnext
  split
  · rename_i hsame
    subst hsame
    rw [update_self]
    rw [h.1] at hwal
    exact rollbackWal_cutWal h.2 hwal
  · rename_i hother
    rw [update_of_ne (Ne.symm hother)]
    exact h

/-- The boundary that a conditional intent sets. -/
def conditionalBoundaries (bytes : Bytes) : List ℕ :=
  match tryParseConditionalIntent bytes with
  | some (.rollback, committedSize) => [committedSize]
  | _ => []

theorem Lowered.recoverConditional {intent : ChunkCoord × Bytes}
    (h : Lowered start lower (wals coord)) (hnext : recoverConditional wals intent = .ok next) :
    Lowered start ((if intent.1 = coord then conditionalBoundaries intent.2 else []).foldl
      lowerBoundary lower) (next coord) := by
  unfold ChunkDb.recoverConditional at hnext
  unfold conditionalBoundaries
  split at hnext
  · cases hnext
  · rename_i hparsed
    cases hnext
    rw [hparsed]
    split <;> exact h
  · rename_i hparsed
    rw [hparsed]
    have hlowered := h.rollbackIn hnext
    split at hlowered
    · rename_i hsame
      rw [if_pos hsame]
      exact hlowered
    · rename_i hother
      rw [if_neg hother]
      exact hlowered

/-- Many steps in a row, each with its boundaries. -/
theorem Lowered.foldlM {A : Type} {l : List A} (boundaries : A → List ℕ)
    {step : (ChunkCoord → Option Bytes) → A → Fallible (ChunkCoord → Option Bytes)}
    (hstep : ∀ {lower wals next a}, Lowered start lower (wals coord) → step wals a = .ok next →
      Lowered start ((boundaries a).foldl lowerBoundary lower) (next coord))
    (h : Lowered start lower (wals coord)) (hnext : l.foldlM step wals = .ok next) :
    Lowered start ((l.flatMap boundaries).foldl lowerBoundary lower) (next coord) := by
  induction l generalizing wals lower with
  | nil =>
    cases hnext
    exact h
  | cons a l ih =>
    rw [foldlM_cons, bind_eq_ok] at hnext
    obtain ⟨middle, hmiddle, hnext⟩ := hnext
    rw [flatMap_cons, foldl_append]
    exact ih (hstep h hmiddle) hnext

theorem flatMap_filter {A B : Type} (p : A → Bool) (g : A → List B) (l : List A) :
    (l.filter p).flatMap g = l.flatMap fun a => if p a then g a else [] := by
  induction l with
  | nil => rfl
  | cons a l ih => by_cases hp : p a <;> simp [hp, ih]

/-- All conditional intents in a row. -/
theorem Lowered.recoverConditionals {intents : List (ChunkCoord × Bytes)}
    (h : Lowered start lower (wals coord))
    (hnext : intents.foldlM ChunkDb.recoverConditional wals = .ok next) :
    Lowered start (((intents.filter (·.1 = coord)).flatMap
      (conditionalBoundaries ·.2)).foldl lowerBoundary lower) (next coord) := by
  rw [flatMap_filter]
  refine h.foldlM _ (fun h hnext => ?_) hnext
  simpa only [decide_eq_true_eq] using h.recoverConditional hnext

/-- All transaction intents in a row. -/
theorem Lowered.recoverTxns {intents : List TxnIntent} (h : Lowered start lower (wals coord))
    (hnext : intents.foldlM recoverTxn wals = .ok next) :
    Lowered start ((intents.flatMap (·.boundariesFor coord)).foldl lowerBoundary lower)
      (next coord) := by
  refine h.foldlM _ (fun {_ _ _ intent} h hnext => ?_) hnext
  unfold recoverTxn at hnext
  unfold TxnIntent.boundariesFor
  cases hstate : intent.state with
  | rollback =>
    rw [hstate] at hnext
    dsimp only
    rw [map_eq_flatMap, flatMap_filter]
    refine h.foldlM _ (fun h hnext => ?_) hnext
    have hlowered := h.rollbackIn hnext
    split at hlowered <;> simp_all
  | committed =>
    rw [hstate] at hnext
    cases hnext
    exact h

theorem exists_of_foldlM_eq_ok {A B : Type} {step : B → A → Fallible B} {l : List A} {s t : B}
    (h : l.foldlM step s = .ok t) : ∀ a ∈ l, ∃ s t, step s a = .ok t := by
  induction l generalizing s with
  | nil => exact nofun
  | cons a l ih =>
    rw [foldlM_cons, bind_eq_ok] at h
    obtain ⟨middle, hmiddle, h⟩ := h
    exact forall_mem_cons.mpr ⟨⟨s, middle, hmiddle⟩, ih h⟩

end Lowered

/-! ## The same boundaries in the order of names -/

theorem lowerBoundary_comm (boundary : Option ℕ) (a b : ℕ) :
    lowerBoundary (lowerBoundary boundary a) b = lowerBoundary (lowerBoundary boundary b) a := by
  unfold lowerBoundary
  cases boundary with
  | none =>
    simp only [getD_none, getD_some, Nat.min_self]
    rw [Nat.min_comm]
  | some m =>
    simp only [getD_some]
    rw [Nat.min_right_comm]

/-- The smallest of some boundaries does not depend on their order. -/
theorem foldl_lowerBoundary_perm {a b : List ℕ} (h : a.Perm b) (boundary : Option ℕ) :
    a.foldl lowerBoundary boundary = b.foldl lowerBoundary boundary :=
  h.foldl_eq' (fun x _ y _ z => lowerBoundary_comm z x y) boundary

/-- The boundaries of a record that parses. -/
def txnBoundaries (coord : ChunkCoord) (bytes : Bytes) : List ℕ :=
  ((tryParseTxnIntent bytes).map (·.boundariesFor coord)).getD []

theorem txnRollbackBoundaryFrom_eq {coord : ChunkCoord} {intents : List Bytes}
    (h : ∀ bytes ∈ intents, (tryParseTxnIntent bytes).isSome = true) (boundary : Option ℕ) :
    txnRollbackBoundaryFrom coord boundary intents
      = .ok ((intents.flatMap (txnBoundaries coord)).foldl lowerBoundary boundary) := by
  induction intents generalizing boundary with
  | nil => rfl
  | cons bytes intents ih =>
    obtain ⟨hbytes, hrest⟩ := forall_mem_cons.mp h
    obtain ⟨intent, hparsed⟩ := isSome_iff_exists.mp hbytes
    rw [txnRollbackBoundaryFrom, hparsed, flatMap_cons, foldl_append, txnBoundaries, hparsed]
    exact ih hrest _

variable (coord : ChunkCoord)

/-- The checked intents set the boundaries of their records. -/
theorem boundaries_of_checked {intents : List (ℕ × Bytes)}
    {parsed : List TxnIntent} (h : intents.mapM checkedTxnIntent = .ok parsed) :
    (∀ intent ∈ intents, (tryParseTxnIntent intent.2).isSome = true)
      ∧ parsed.flatMap (·.boundariesFor coord) = intents.flatMap (txnBoundaries coord ·.2) := by
  induction intents generalizing parsed with
  | nil =>
    cases h
    exact ⟨nofun, rfl⟩
  | cons intent intents ih =>
    simp only [mapM_cons, bind_eq_ok] at h
    obtain ⟨first, hfirst, rest, hrest, h⟩ := h
    cases h
    obtain ⟨hall, hboundaries⟩ := ih hrest
    have hparsed : tryParseTxnIntent intent.2 = some first := by
      unfold checkedTxnIntent at hfirst
      split at hfirst
      · cases hfirst
      · rename_i found hfound
        split at hfirst
        · cases hfirst
        · rw [hfound, Except.ok.inj hfirst]
    refine ⟨forall_mem_cons.mpr ⟨by rw [hparsed]; rfl, hall⟩, ?_⟩
    rw [flatMap_cons, flatMap_cons, hboundaries, txnBoundaries, hparsed]
    rfl

theorem foldl_lowerBoundary_some (boundaries : List ℕ) (m : ℕ) :
    boundaries.foldl lowerBoundary (some m)
      = some (match boundaries.foldl lowerBoundary none with
        | some boundary => min m boundary
        | none => m) := by
  induction boundaries using List.reverseRecOn with
  | nil => rfl
  | append_singleton boundaries last ih =>
    rw [foldl_append, foldl_append, ih]
    cases boundaries.foldl lowerBoundary none with
    | none =>
      simp only [foldl_cons, foldl_nil, lowerBoundary, getD_some, getD_none, Nat.min_self]
    | some boundary =>
      simp only [foldl_cons, foldl_nil, lowerBoundary, getD_some]
      rw [Nat.min_assoc]

/-! ## What a read-only store replays -/

theorem filter_key_eq_find? {A B : Type} [DecidableEq A] {l : List (A × B)}
    (h : (l.map Prod.fst).Nodup) (a : A) :
    l.filter (·.1 = a) = (l.find? (·.1 = a)).toList := by
  induction l with
  | nil => rfl
  | cons x l ih =>
    rw [map_cons, nodup_cons] at h
    by_cases hx : x.1 = a
    · have hrest : l.filter (·.1 = a) = [] := by
        rw [filter_eq_nil_iff]
        intro y hy hya
        refine h.1 (mem_map.mpr ⟨y, hy, ?_⟩)
        rw [hx]
        exact of_decide_eq_true hya
      rw [filter_cons_of_pos (by simpa using hx), hrest, find?_cons_of_pos (by simpa using hx)]
      rfl
    · rw [filter_cons_of_neg (by simpa using hx), find?_cons_of_neg (by simpa using hx)]
      exact ih h.2

/-- The limit as the boundary it stands for. -/
def ReplayLimit.boundary (limit : ReplayLimit) : Option ℕ :=
  if limit.rollbackBoundary then some limit.committedWalSize else none

/-- The intents limit a read-only replay to the lowest of their boundaries. -/
theorem replayLimit_eq {snapshot : ChunkDiskSnapshot}
    (hintent : ∀ bytes, snapshot.intent = some bytes → (tryParseConditionalIntent bytes).isSome = true)
    (htxns : ∀ bytes ∈ snapshot.txnIntents, (tryParseTxnIntent bytes).isSome = true) :
    ∃ limit, snapshot.replayLimit coord = .ok limit
      ∧ limit.boundary = (snapshot.txnIntents.flatMap (txnBoundaries coord)).foldl lowerBoundary
          ((snapshot.intent.toList.flatMap conditionalBoundaries).foldl lowerBoundary none) := by
  unfold ChunkDiskSnapshot.replayLimit txnRollbackBoundaryForChunk
  rw [txnRollbackBoundaryFrom_eq htxns]
  generalize snapshot.txnIntents.flatMap (txnBoundaries coord) = boundaries
  cases hfound : snapshot.intent with
  | none =>
    cases htxn : boundaries.foldl lowerBoundary none with
    | none => exact ⟨⟨false, 0⟩, by simp, by simp [boundary, htxn]⟩
    | some boundary => exact ⟨⟨true, boundary⟩, by simp, by simp [ReplayLimit.boundary, htxn]⟩
  | some bytes =>
    obtain ⟨⟨state, size⟩, hparsed⟩ := isSome_iff_exists.mp (hintent bytes hfound)
    have hone : (some bytes).toList.flatMap conditionalBoundaries = conditionalBoundaries bytes := by
      simp
    rw [hone]
    dsimp only
    rw [hparsed]
    cases state with
    | committed =>
      have hnone : conditionalBoundaries bytes = [] := by rw [conditionalBoundaries, hparsed]
      rw [hnone, foldl_nil]
      cases htxn : boundaries.foldl lowerBoundary none with
      | none => exact ⟨⟨false, size⟩, by simp, by simp [boundary]⟩
      | some boundary => exact ⟨⟨true, boundary⟩, by simp, by simp [ReplayLimit.boundary]⟩
    | rollback =>
      have hsize : conditionalBoundaries bytes = [size] := by rw [conditionalBoundaries, hparsed]
      rw [hsize, foldl_cons, foldl_nil, lowerBoundary, getD_none, Nat.min_self,
        foldl_lowerBoundary_some]
      cases htxn : boundaries.foldl lowerBoundary none with
      | none => exact ⟨⟨true, size⟩, by simp, by simp [boundary]⟩
      | some boundary =>
        exact ⟨⟨true, min size boundary⟩, by simp, by simp [ReplayLimit.boundary]⟩

/-- Where recovery succeeds, a read-only store finds its limit, and the WAL that recovery leaves
is the part of the WAL below it. -/
theorem StoreFiles.recovered_wal {files recovered : StoreFiles}
    (h : files.recoverIntents = .ok recovered) (coord : ChunkCoord)
    (generation : SnapshotGenerationObservation) :
    recovered.images = files.images ∧ ∃ limit,
      (files.snapshot coord generation).replayLimit coord = .ok limit
        ∧ Lowered (files.wals coord) limit.boundary (recovered.wals coord) := by
  simp only [recoverIntents, recoverConditionalRollbackIntents, recoverTransactionIntents,
    bind_eq_ok] at h
  obtain ⟨middle, ⟨wals, hconditionals, hmiddle⟩, intents, hintents, final, hfinal, h⟩ := h
  cases hmiddle
  cases h
  refine ⟨rfl, ?_⟩
  have hlowered := (lowered_start (files.wals coord)).recoverConditionals hconditionals
  obtain ⟨hchecked, hboundaries⟩ := boundaries_of_checked coord hintents
  have hlowered := hlowered.recoverTxns hfinal
  have hbytes : ∀ bytes ∈ (files.snapshot coord generation).txnIntents,
      (tryParseTxnIntent bytes).isSome = true := by
    intro bytes hmem
    obtain ⟨intent, hintent, rfl⟩ := mem_map.mp hmem
    refine hchecked intent ((mem_insertionSort _).mpr ?_)
    exact (mem_insertionSort _).mp hintent
  have hintent : ∀ bytes, (files.snapshot coord generation).intent = some bytes →
      (tryParseConditionalIntent bytes).isSome = true := by
    intro bytes hfound
    obtain ⟨intent, hintent, rfl⟩ := map_eq_some_iff.mp hfound
    obtain ⟨_, _, hok⟩ := exists_of_foldlM_eq_ok hconditionals _ (mem_of_find?_eq_some hintent)
    unfold recoverConditional at hok
    split at hok
    · cases hok
    all_goals simp [*]
  obtain ⟨limit, hlimit, hboundary⟩ := replayLimit_eq coord hintent hbytes
  refine ⟨limit, hlimit, ?_⟩
  -- names sort otherwise than versions, but the lowest boundary is the same
  have hperm : (files.snapshot coord generation).txnIntents.flatMap (txnBoundaries coord)
      = (files.transactions.insertionSort fun a b => txnIntentName a.1 ≤ txnIntentName b.1).flatMap
          (txnBoundaries coord ·.2) := by
    rw [StoreFiles.snapshot, flatMap_map]
  have hsame := foldl_lowerBoundary_perm (((perm_insertionSort
    (fun a b : ℕ × Bytes => a.1 ≤ b.1) files.transactions).trans (perm_insertionSort
      (fun a b : ℕ × Bytes => txnIntentName a.1 ≤ txnIntentName b.1)
      files.transactions).symm).flatMap_right (txnBoundaries coord ·.2))
  have hfind : (files.snapshot coord generation).intent.toList.flatMap conditionalBoundaries
      = (files.conditionals.filter (·.1 = coord)).flatMap (conditionalBoundaries ·.2) := by
    rw [filter_key_eq_find? files.conditionals_nodup, StoreFiles.snapshot]
    cases files.conditionals.find? (·.1 = coord) with
    | none => rfl
    | some intent => rfl
  rw [hboundary, hfind, hperm, ← hsame, ← hboundaries]
  exact hlowered

/-- A read-only store replays what recovery would leave of the WAL. -/
theorem replayBytes_eq {snapshot : ChunkDiskSnapshot} {limit : ReplayLimit}
    {left : Option Bytes} (h : Lowered snapshot.wal limit.boundary left) :
    snapshot.replayBytes coord limit = .ok (left.getD []) := by
  obtain ⟨rfl, hreaches⟩ := h
  unfold ChunkDiskSnapshot.replayBytes boundary at *
  cases hrollback : limit.rollbackBoundary with
  | false =>
    rw [if_neg (by simp), if_neg (by simp)]
    cases snapshot.wal <;> rfl
  | true =>
    rw [hrollback, if_pos rfl] at hreaches
    rw [if_pos rfl, if_pos rfl]
    cases hwal : snapshot.wal with
    | none =>
      rw [hwal] at hreaches
      change limit.committedWalSize = 0 at hreaches
      dsimp only
      rw [if_neg (not_not.mpr hreaches)]
      rfl
    | some wal =>
      rw [hwal] at hreaches
      dsimp only
      rw [if_neg (Nat.not_lt.mpr hreaches), cutWal]
      split
      · rename_i hzero
        rw [hzero, take_zero]
        rfl
      · rfl

/-- An interrupted creation has no tail. -/
theorem replayWal_tornCreation {wal : Bytes} {geometry : Geometry} {chunkCoord : ChunkCoord}
    {storeId : StoreId} {features : FeatureFlags} {base : ReplayBase} {replayed : Replayed}
    (h : replayWal wal geometry chunkCoord storeId features base = .ok replayed)
    (htorn : replayed.result.tornCreation = true) :
    replayed.result.tailTruncatedOrCorrupt = false := by
  unfold replayWal at h
  split at h
  · unfold replayWithoutHeader at h
    obtain ⟨state, _, h⟩ := bind_eq_ok.mp h
    split at h <;>
    · cases h
      rfl
  · simp only [bind_eq_ok, Replayer.finish] at h
    obtain ⟨state, _, progress, hloop, current, _, h⟩ := h
    cases h
    have hkeeps := Replayer.replayLoop_keeps (I := fun p => p.result.tornCreation = false) hloop rfl
      (fun p _ _ hp => hp) (fun p _ hp => hp) (fun p _ _ hp _ => hp)
    rw [hkeeps] at htorn
    cases htorn

/-- An empty WAL is an interrupted creation. -/
theorem replayWal_nil {geometry : Geometry} {chunkCoord : ChunkCoord} {storeId : StoreId}
    {features : FeatureFlags} {base : ReplayBase} {replayed : Replayed}
    (h : replayWal [] geometry chunkCoord storeId features base = .ok replayed) :
    replayed.result.tornCreation = true
      ∧ bringToCurrentSchema geometry base.version base.state = .ok replayed.state := by
  unfold replayWal at h
  rw [walHeaderError, if_pos (by decide)] at h
  dsimp only at h
  rw [replayWithoutHeader, bind_eq_ok] at h
  obtain ⟨state, hstate, h⟩ := h
  have hinterrupted : isInterruptedCreation [] chunkCoord storeId = true := by
    simp [isInterruptedCreation]
  rw [if_pos hinterrupted] at h
  cases h
  exact ⟨rfl, hstate⟩

namespace ChunkLoader

/-- The state of a load in the current schema version. -/
def current (loader : ChunkLoader) (loaded : LoadedChunkPayload) : Fallible ChunkState :=
  bringToCurrentSchema loader.geometry loaded.schemaVersion loaded.state

/-- Replay ends at a tail before the size that an intent records. -/
def TornBeforeBoundary (loader : ChunkLoader) (snapshot : ChunkDiskSnapshot) : Prop :=
  ∃ image limit bytes replayed, loader.loadImage snapshot.image = .ok image
    ∧ snapshot.replayLimit loader.chunkCoord = .ok limit
    ∧ snapshot.replayBytes loader.chunkCoord limit = .ok bytes ∧ bytes ≠ []
    ∧ loader.replayOver image bytes = .ok replayed
    ∧ replayed.result.tailTruncatedOrCorrupt = true
    ∧ replayed.result.validEnd < limit.committedWalSize

/-- What a writer's replay of a WAL says about a read-only replay of the same bytes: it gives the
same, or it fails because the tail is before the recorded size. -/
theorem replayReadOnly_of_writer {loader : ChunkLoader} {image written : LoadedChunkPayload}
    {wal : Bytes} {left : Option Bytes} (h : loader.replayWriter image wal = .ok (written, left))
    (hne : wal ≠ []) (generation : SnapshotGenerationObservation) (limit : ReplayLimit) :
    ∃ replayed, loader.replayOver image wal = .ok replayed
      ∧ (¬ (replayed.result.tailTruncatedOrCorrupt = true
          ∧ replayed.result.validEnd < limit.committedWalSize) →
        ∃ loaded,
          loader.replayReadOnly { image with readOnlyGeneration := generation } limit wal = .ok loaded
            ∧ loaded.revision = written.revision ∧ loaded.schemaVersion = written.schemaVersion
            ∧ loaded.state = written.state)
      ∧ (replayed.result.tailTruncatedOrCorrupt = true →
        replayed.result.validEnd < limit.committedWalSize → ∃ e,
          loader.replayReadOnly { image with readOnlyGeneration := generation } limit wal
            = .error e) := by
  rw [replayWriter, bind_eq_ok] at h
  obtain ⟨replayed, hreplayed, h⟩ := h
  refine ⟨replayed, hreplayed, ?_⟩
  have hreplay : loader.replayOver { image with readOnlyGeneration := generation } wal = .ok replayed :=
    hreplayed
  rw [replayReadOnly, if_neg hne, hreplay, ok_bind]
  dsimp only at h ⊢
  cases htorn : replayed.result.tornCreation with
  | true =>
    rw [htorn, if_pos rfl] at h
    rw [if_pos rfl]
    cases h
    refine ⟨fun _ => ⟨_, rfl, rfl, rfl, rfl⟩, fun htail => ?_⟩
    rw [replayWal_tornCreation hreplayed htorn] at htail
    cases htail
  | false =>
    rw [htorn, if_neg (by simp)] at h
    rw [if_neg (by simp)]
    simp only [↓check_bind_eq_ok, require_eq_ok] at h
    obtain ⟨hreplayable, hcrash, hvars, h⟩ := h
    cases h
    constructor
    · intro hnot
      have haccepts : ¬ (replayed.result.replayable = false
          ∨ replayed.result.tailTruncatedOrCorrupt = true
            ∧ limit.acceptsTail replayed.result = false) := by
        rintro (hno | ⟨htail, haccepts⟩)
        · rw [hreplayable] at hno
          cases hno
        · rw [acceptsTail, Bool.and_eq_false_iff] at haccepts
          rcases haccepts with hstop | hshort
          · exact hcrash ⟨htail, hstop⟩
          · exact hnot ⟨htail, Nat.lt_of_not_le (of_decide_eq_false hshort)⟩
      rw [require_of haccepts, ok_bind, require_of hvars, ok_bind]
      refine ⟨_, rfl, ?_⟩
      unfold LoadedChunkPayload.withReplay
      split <;> exact ⟨rfl, rfl, rfl⟩
    · intro htail hshort
      have hrefused : replayed.result.replayable = false
          ∨ replayed.result.tailTruncatedOrCorrupt = true
            ∧ limit.acceptsTail replayed.result = false := by
        refine .inr ⟨htail, ?_⟩
        rw [acceptsTail, Bool.and_eq_false_iff]
        exact .inr (decide_eq_false (Nat.not_le_of_lt hshort))
      rw [require, if_neg (not_not.mpr hrefused)]
      exact ⟨_, rfl⟩

end ChunkLoader

/-- A read-only load gives the state, the revision and the values that a writer gives once it has
recovered the intents, unless the WAL ends in a torn tail before the size an intent records.  The
two may differ in the schema version of the state only where the WAL is an empty file. -/
theorem readOnly_eq_writer_iff (table : Table) (storeId : StoreId) (features : FeatureFlags)
    (coord : ChunkCoord) (generation : SnapshotGenerationObservation) {files recovered : StoreFiles}
    {written : LoadedChunkPayload} {left : Option Bytes}
    (hrecover : files.recoverIntents = .ok recovered)
    (hwriter : (table.loader coord storeId features).loadWriter (recovered.images coord)
      (recovered.wals coord) = .ok (written, left)) :
    (∃ loaded,
      (table.loader coord storeId features).loadReadOnly (files.snapshot coord generation) = .ok loaded
        ∧ loaded.revision = written.revision
        ∧ (table.loader coord storeId features).current loaded
          = (table.loader coord storeId features).current written
        ∧ (recovered.wals coord ≠ some [] → loaded.state = written.state))
    ↔ ¬ (table.loader coord storeId features).TornBeforeBoundary (files.snapshot coord generation) := by
  have hversion : (table.loader coord storeId features).geometry.layout.schema.version ≠ 0 :=
    table.history.version_pos.ne'
  have hcoord : (table.loader coord storeId features).chunkCoord = coord := rfl
  generalize table.loader coord storeId features = loader at hversion hcoord hwriter ⊢
  subst hcoord
  obtain ⟨himages, limit, hlimit, hlowered⟩ := files.recovered_wal hrecover loader.chunkCoord generation
  have hbytes : (files.snapshot loader.chunkCoord generation).replayBytes loader.chunkCoord limit
      = .ok ((recovered.wals loader.chunkCoord).getD []) :=
    replayBytes_eq loader.chunkCoord hlowered
  rw [himages, loadWriter, bind_eq_ok] at hwriter
  obtain ⟨image, himage, hwriter⟩ := hwriter
  have hreader : loader.loadReadOnly (files.snapshot loader.chunkCoord generation)
      = loader.replayReadOnly { image with readOnlyGeneration := generation } limit
          ((recovered.wals loader.chunkCoord).getD []) := by
    rw [loadReadOnly]
    change (loader.loadImage (files.images loader.chunkCoord) >>= _) = _
    rw [himage, ok_bind]
    dsimp only
    rw [hlimit, ok_bind, hbytes, ok_bind]
    rfl
  have htorn : loader.TornBeforeBoundary (files.snapshot loader.chunkCoord generation) ↔
      (recovered.wals loader.chunkCoord).getD [] ≠ [] ∧ ∃ replayed,
        loader.replayOver image ((recovered.wals loader.chunkCoord).getD []) = .ok replayed
          ∧ replayed.result.tailTruncatedOrCorrupt = true
          ∧ replayed.result.validEnd < limit.committedWalSize := by
    constructor
    · rintro ⟨image', limit', bytes, replayed, himage', hlimit', hbytes', hrest⟩
      cases himage.symm.trans himage'
      cases hlimit.symm.trans hlimit'
      cases hbytes.symm.trans hbytes'
      exact ⟨hrest.1, replayed, hrest.2⟩
    · rintro ⟨hne, replayed, hrest⟩
      exact ⟨image, limit, _, replayed, himage, hlimit, hbytes, hne, hrest⟩
  rw [hreader, htorn]
  cases hwal : recovered.wals loader.chunkCoord with
  | none =>
    rw [hwal] at hwriter
    cases hwriter
    rw [getD_none, replayReadOnly, if_pos rfl]
    exact iff_of_true ⟨_, rfl, rfl, rfl, fun _ => rfl⟩ fun htorn => htorn.1 rfl
  | some wal =>
    rw [hwal] at hwriter
    rw [getD_some]
    by_cases hne : wal = []
    · -- an empty file: the writer brings the state to the current version, the reader does not yet
      subst hne
      rw [replayReadOnly, if_pos rfl]
      refine iff_of_true ⟨_, rfl, ?_⟩ fun htorn => htorn.1 rfl
      dsimp only at hwriter
      rw [replayWriter, bind_eq_ok] at hwriter
      obtain ⟨replayed, hreplayed, hwriter⟩ := hwriter
      obtain ⟨htorn, hstate⟩ := replayWal_nil hreplayed
      dsimp only at hwriter
      rw [if_pos htorn] at hwriter
      cases hwriter
      refine ⟨rfl, ?_, fun hno => absurd rfl hno⟩
      unfold current
      change bringToCurrentSchema loader.geometry image.schemaVersion image.state
        = bringToCurrentSchema loader.geometry loader.geometry.layout.schema.version replayed.state
      have hcurrent : bringToCurrentSchema loader.geometry loader.geometry.layout.schema.version
          replayed.state = .ok replayed.state := by
        rw [bringToCurrentSchema, if_neg hversion, Nat.sub_self]
        rfl
      exact hstate.trans hcurrent.symm
    · obtain ⟨replayed, hreplayed, hsame, hfails⟩ :=
        replayReadOnly_of_writer hwriter hne generation limit
      constructor
      · rintro ⟨loaded, hloaded, _⟩ ⟨_, replayed', hreplayed', htail, hshort⟩
        cases hreplayed.symm.trans hreplayed'
        obtain ⟨e, herror⟩ := hfails htail hshort
        rw [hloaded] at herror
        cases herror
      · intro hnot
        obtain ⟨loaded, hloaded, hrevision, hschema, hstate⟩ := hsame fun hcut =>
          hnot ⟨hne, replayed, hreplayed, hcut⟩
        refine ⟨loaded, hloaded, hrevision, ?_, fun _ => hstate⟩
        rw [current, current, hschema, hstate]

/-- A WAL whose first frame was cut off after a byte. -/
def tornWal : Bytes := buildWalHeader ⟨0, 0⟩ (.ofByte 7) ⟨0, 0, 0⟩ ++ [0x43]

/-- A chunk with such a WAL and no image, and a conditional intent for it. -/
def tornFiles (state : IntentState) (committedWalSize : ℕ) : StoreFiles where
  images _ := none
  wals := update (fun _ => none) ⟨0, 0⟩ (some tornWal)
  conditionals := [(⟨0, 0⟩, serializeConditionalIntent state committedWalSize)]
  transactions := []
  conditionals_nodup := nodup_singleton _

/-- The same chunk once its intent is resolved. -/
def resolvedFiles (wal : Bytes) : StoreFiles where
  images _ := none
  wals := update (fun _ => none) ⟨0, 0⟩ (some wal)
  conditionals := []
  transactions := []
  conditionals_nodup := nodup_nil

theorem recoverIntents_rollback :
    (tornFiles .rollback 60).recoverIntents = .ok (resolvedFiles (tornWal.take 60)) := by
  have hwals : (tornFiles .rollback 60).conditionals.foldlM recoverConditional
      (tornFiles .rollback 60).wals = .ok (resolvedFiles (tornWal.take 60)).wals := by
    change (recoverConditional (tornFiles .rollback 60).wals _ >>= pure) = _
    rw [recoverConditional, tryParse_serializeConditionalIntent .rollback (by decide)]
    dsimp only
    have hwal : (tornFiles .rollback 60).wals ⟨0, 0⟩ = some tornWal := by
      simp [tornFiles]
    rw [rollbackIn, hwal, rollbackWal, if_neg (by decide +kernel), if_neg (by decide)]
    exact congrArg Except.ok (update_idem ..)
  rw [StoreFiles.recoverIntents, StoreFiles.recoverConditionalRollbackIntents, hwals]
  rfl

theorem recoverIntents_committed :
    (tornFiles .committed 100).recoverIntents = .ok (resolvedFiles tornWal) := by
  have hwals : (tornFiles .committed 100).conditionals.foldlM recoverConditional
      (tornFiles .committed 100).wals = .ok (resolvedFiles tornWal).wals := by
    change (recoverConditional (tornFiles .committed 100).wals _ >>= pure) = _
    rw [recoverConditional, tryParse_serializeConditionalIntent .committed (by decide)]
    rfl
  rw [StoreFiles.recoverIntents, StoreFiles.recoverConditionalRollbackIntents, hwals]
  rfl

theorem readOnly_eq_writer_of_rollback :
    ∃ written left loaded,
      cellsLoader.loadWriter none (some (tornWal.take 60)) = .ok (written, left)
        ∧ cellsLoader.loadReadOnly ((tornFiles .rollback 60).snapshot ⟨0, 0⟩ (1, 0)) = .ok loaded
        ∧ loaded.revision = written.revision ∧ loaded.state = written.state := by
  have hwal : (resolvedFiles (tornWal.take 60)).wals ⟨0, 0⟩ = some (tornWal.take 60) := by
    simp [resolvedFiles]
  obtain ⟨⟨written, left⟩, hwriter, _⟩ := Fallible.map_eq_ok
    (show (cellsLoader.loadWriter none (some (tornWal.take 60))).map (fun _ => ()) = .ok () by
      decide +kernel)
  have hiff := readOnly_eq_writer_iff smallShape.table (.ofByte 7) ⟨0, 0, 0⟩ ⟨0, 0⟩ (1, 0)
    recoverIntents_rollback (by rw [hwal]; exact hwriter)
  -- the WAL up to the boundary is its header, and replays to its end
  have hwhole : ¬ cellsLoader.TornBeforeBoundary ((tornFiles .rollback 60).snapshot ⟨0, 0⟩ (1, 0)) := by
    rintro ⟨image, limit, bytes, replayed, himage, hlimit, hbytes, _, hreplayed, htail, hshort⟩
    have hresult : (do
        let image ← cellsLoader.loadImage ((tornFiles .rollback 60).snapshot ⟨0, 0⟩ (1, 0)).image
        let limit ← ((tornFiles .rollback 60).snapshot ⟨0, 0⟩ (1, 0)).replayLimit ⟨0, 0⟩
        let bytes ← ((tornFiles .rollback 60).snapshot ⟨0, 0⟩ (1, 0)).replayBytes ⟨0, 0⟩ limit
        let replayed ← cellsLoader.replayOver image bytes
        return replayed.result.tailTruncatedOrCorrupt) = Except.ok false := by decide +kernel
    have hcoord : cellsLoader.chunkCoord = ⟨0, 0⟩ := rfl
    rw [hcoord] at hlimit hbytes
    rw [himage, ok_bind, hlimit, ok_bind, hbytes, ok_bind, hreplayed, ok_bind] at hresult
    rw [htail] at hresult
    cases hresult
  obtain ⟨loaded, hloaded, hrevision, _, hstate⟩ := hiff.mpr hwhole
  refine ⟨written, left, loaded, hwriter, hloaded, hrevision, hstate ?_⟩
  rw [hwal]
  decide +kernel

/-- A stale commit intent: its size is of a WAL that a checkpoint has removed since.  A writer
loads the chunk, a read-only store refuses it. -/
theorem readOnly_not_writer_of_committed :
    (tornFiles .committed 100).recoverIntents = .ok (resolvedFiles tornWal)
      ∧ (cellsLoader.loadWriter ((resolvedFiles tornWal).images ⟨0, 0⟩)
          ((resolvedFiles tornWal).wals ⟨0, 0⟩)).map (·.1.revision) = .ok 0
      ∧ (cellsLoader.loadReadOnly ((tornFiles .committed 100).snapshot ⟨0, 0⟩ (1, 0))).map (·.revision)
        = .error ⟨.runtimeError,
            "read-only chunk snapshot rejected WAL for chunk (0,0): partial_frame_header"⟩ := by
  refine ⟨recoverIntents_committed, ?_, ?_⟩
  · decide +kernel
  · decide +kernel

end ChunkDb
