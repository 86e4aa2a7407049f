/-
# The committed writes of a chunk

What the log of a table says about one chunk: the writes to it in the order of their commits, and
the state that the writes below a version left.  The chunks a write changes are those it locks
exclusively, and the state it publishes is the one it replaced.
-/
import ChunkDb.Txn.Store

namespace ChunkDb

open List Option

/-! ## The chunks of a write -/

namespace TxnWrite

theorem mem_targets_transaction {id : ℕ} {reads : List ChunkCoord}
    {writes : List (ChunkCoord × ChunkState)} {coord : ChunkCoord} :
    (coord, true) ∈ (transaction id reads writes).targets ↔ coord ∈ writes.map Prod.fst := by
  simp [targets]

/-- A write changes chunks that it locks exclusively. -/
theorem mem_targets_of_mem_changes {w : TxnWrite} {chunks : ChunkCoord → StoredState}
    {change : ChunkCoord × ChunkState} (hchange : change ∈ w.changes chunks) :
    (change.1, true) ∈ w.targets := by
  cases w with
  | plain wholeChunk coord update =>
    obtain rfl := mem_singleton.mp hchange
    exact mem_singleton.mpr rfl
  | transaction id reads writes =>
    exact mem_targets_transaction.mpr (mem_map_of_mem (mem_filter.mp hchange).1)

theorem mem_coords {w : TxnWrite} {coord : ChunkCoord} :
    coord ∈ w.coords ↔ ∃ exclusive, (coord, exclusive) ∈ w.targets := by
  simp [coords]

/-- Each chunk is changed once. -/
theorem nodup_changes {w : TxnWrite} (hvalid : w.Valid) (chunks : ChunkCoord → StoredState) :
    ((w.changes chunks).map Prod.fst).Nodup := by
  cases w with
  | plain wholeChunk coord update => exact nodup_singleton _
  | transaction id reads writes =>
    have hnodup : (writes.map Prod.fst).Nodup := hvalid.2.imp ne_of_lt
    exact hnodup.sublist (filter_sublist.map Prod.fst)

/-- The changes depend on the chunks that are locked exclusively. -/
theorem changes_congr {w : TxnWrite} {chunks chunks' : ChunkCoord → StoredState}
    (hsame : ∀ coord, (coord, true) ∈ w.targets → chunks' coord = chunks coord) :
    w.changes chunks' = w.changes chunks := by
  cases w with
  | plain wholeChunk coord update =>
    change [(coord, update (chunks' coord).toChunkState)] = _
    rw [hsame coord (mem_singleton.mpr rfl)]
    rfl
  | transaction id reads writes =>
    refine filter_congr fun write hwrite => ?_
    rw [hsame write.1 (mem_targets_transaction.mpr (mem_map_of_mem hwrite))]

theorem coord_prepareKeep (w : TxnWrite) (overhead version : ℕ) (coord : ChunkCoord)
    (state : StoredState) : (w.prepareKeep overhead coord version state).coord = coord := by
  cases w with
  | plain wholeChunk _ _ => cases wholeChunk <;> rfl
  | transaction _ _ _ => rfl

/-- Filled at the commit, each reservation holds the replaced state. -/
theorem fillKeep_prepareKeep (w : TxnWrite) (overhead version : ℕ) (coord : ChunkCoord)
    (state : StoredState) :
    w.fillKeep overhead state (w.prepareKeep overhead coord version state)
      = .reserve overhead coord version state := by
  cases w with
  | plain wholeChunk _ _ => cases wholeChunk <;> rfl
  | transaction _ _ _ => rfl

end TxnWrite

/-! ## The writes to a chunk -/

theorem mem_of_lookup_eq_some {changes : List (ChunkCoord × ChunkState)} {coord : ChunkCoord}
    {state : ChunkState} (hsome : changes.lookup coord = some state) : (coord, state) ∈ changes := by
  obtain ⟨before, after, rfl, _⟩ := lookup_eq_some_iff.mp hsome
  exact mem_append_right _ mem_cons_self

theorem exists_lookup_of_mem {changes : List (ChunkCoord × ChunkState)}
    {change : ChunkCoord × ChunkState} (hchange : change ∈ changes) :
    ∃ state, changes.lookup change.1 = some state := by
  refine ne_none_iff_exists'.mp fun hnone => ?_
  simpa using lookup_eq_none_iff.mp hnone change hchange

/-- The versions of the writes to a chunk with the states they left. -/
def writesTo (log : List TxnCommit) (coord : ChunkCoord) : List (ℕ × StoredState) :=
  log.filterMap fun commit => (commit.changes.lookup coord).map fun state =>
    (commit.version, ⟨state, commit.version, true⟩)

/-- The state that the writes below a version left. -/
def stateBelow (initial : ChunkCoord → StoredState) (log : List TxnCommit) (coord : ChunkCoord)
    (version : ℕ) : StoredState :=
  (((writesTo log coord).filter (fun write => write.1 < version)).getLast?.map Prod.snd).getD
    (initial coord)

section Writes

variable {initial : ChunkCoord → StoredState} {log : List TxnCommit} {coord : ChunkCoord}
  {version : ℕ} {commit : TxnCommit}

theorem mem_writesTo {write : ℕ × StoredState} :
    write ∈ writesTo log coord ↔ ∃ commit ∈ log, ∃ state,
      commit.changes.lookup coord = some state
        ∧ (commit.version, ⟨state, commit.version, true⟩) = write := by
  simp only [writesTo, mem_filterMap, map_eq_some_iff]

theorem writesTo_append (log : List TxnCommit) (commit : TxnCommit) (coord : ChunkCoord) :
    writesTo (log ++ [commit]) coord = writesTo log coord ++ ((commit.changes.lookup coord).map
      fun state => (commit.version, (⟨state, commit.version, true⟩ : StoredState))).toList := by
  rw [writesTo, filterMap_append]
  congr 1

theorem writesTo_append_of_none (hnone : commit.changes.lookup coord = none) :
    writesTo (log ++ [commit]) coord = writesTo log coord := by
  rw [writesTo_append, hnone]
  exact append_nil _

theorem writesTo_append_of_some {state : ChunkState}
    (hsome : commit.changes.lookup coord = some state) :
    writesTo (log ++ [commit]) coord
      = writesTo log coord ++ [(commit.version, ⟨state, commit.version, true⟩)] := by
  rw [writesTo_append, hsome]
  rfl

/-- Without a write between two versions the states below them are the same. -/
theorem stateBelow_congr {version' : ℕ}
    (hsame : ∀ write ∈ writesTo log coord, write.1 < version ↔ write.1 < version') :
    stateBelow initial log coord version = stateBelow initial log coord version' := by
  unfold stateBelow
  rw [filter_congr fun write hwrite => by rw [decide_eq_decide.mpr (hsame write hwrite)]]

theorem stateBelow_of_writesTo {log' : List TxnCommit}
    (hsame : writesTo log' coord = writesTo log coord) :
    stateBelow initial log' coord version = stateBelow initial log coord version := by
  unfold stateBelow
  rw [hsame]

/-- A commit at or above a version does not change the state below it. -/
theorem stateBelow_append (hle : commit.changes.lookup coord ≠ none → version ≤ commit.version) :
    stateBelow initial (log ++ [commit]) coord version = stateBelow initial log coord version := by
  cases hlookup : commit.changes.lookup coord with
  | none => exact stateBelow_of_writesTo (writesTo_append_of_none hlookup)
  | some state =>
    have hnot : ¬ commit.version < version :=
      not_lt.mpr (hle (by rw [hlookup]; exact some_ne_none _))
    unfold stateBelow
    rw [writesTo_append_of_some hlookup, filter_append,
      filter_cons_of_neg (by simpa using hnot), filter_nil, append_nil]

/-- The last commit to a chunk leaves its state. -/
theorem stateBelow_append_of_some {state : ChunkState}
    (hsome : commit.changes.lookup coord = some state) (hlt : commit.version < version) :
    stateBelow initial (log ++ [commit]) coord version = ⟨state, commit.version, true⟩ := by
  unfold stateBelow
  rw [writesTo_append_of_some hsome, filter_append,
    filter_cons_of_pos (by simpa using hlt), filter_nil, getLast?_concat]
  rfl

end Writes

/-! ## The writes in version order -/

/-- The commits in the order of their versions. -/
def inVersionOrder (log : List TxnCommit) : List TxnCommit :=
  log.mergeSort fun lhs rhs => lhs.version ≤ rhs.version

/-- The states that commits leave one after the other. -/
def replayCommits (initial : ChunkCoord → StoredState) (commits : List TxnCommit) :
    ChunkCoord → StoredState :=
  commits.foldl (fun chunks commit => applyChanges commit.version commit.changes chunks) initial

/-- The states that all writes up to a version leave. -/
def stateAt (initial : ChunkCoord → StoredState) (log : List TxnCommit) (version : ℕ) :
    ChunkCoord → StoredState :=
  replayCommits initial (inVersionOrder (log.filter fun commit => commit.version ≤ version))

section Order

variable {initial : ChunkCoord → StoredState} {log : List TxnCommit} {coord : ChunkCoord}
  {version : ℕ}

/-- A chunk has the state of the last write to it. -/
theorem replayCommits_apply (initial : ChunkCoord → StoredState) (commits : List TxnCommit)
    (coord : ChunkCoord) :
    replayCommits initial commits coord
      = ((writesTo commits coord).getLast?.map Prod.snd).getD (initial coord) := by
  induction commits using List.reverseRecOn with
  | nil => rfl
  | append_singleton commits commit ih =>
    rw [replayCommits, foldl_concat, writesTo_append]
    change applyChanges commit.version commit.changes (replayCommits initial commits) coord = _
    unfold applyChanges
    cases commit.changes.lookup coord with
    | none =>
      change replayCommits initial commits coord = _
      rw [ih, map_none, toList_none, append_nil]
    | some state =>
      rw [map_some, toList_some, getLast?_concat]
      rfl

theorem perm_inVersionOrder (log : List TxnCommit) : (inVersionOrder log).Perm log :=
  mergeSort_perm log _

theorem pairwise_inVersionOrder (log : List TxnCommit) :
    (inVersionOrder log).Pairwise fun lhs rhs => lhs.version ≤ rhs.version := by
  have htrans : ∀ a b c : TxnCommit, decide (a.version ≤ b.version) = true →
      decide (b.version ≤ c.version) = true → decide (a.version ≤ c.version) = true := by
    intro a b c
    simpa using le_trans
  have htotal : ∀ a b : TxnCommit,
      (decide (a.version ≤ b.version) || decide (b.version ≤ a.version)) = true := by
    intro a b
    simpa using le_total a.version b.version
  exact (pairwise_mergeSort htrans htotal log).imp of_decide_eq_true

/-- The writes to a chunk are in the order of their versions in the log already. -/
theorem writesTo_inVersionOrder
    (hincreasing : ((writesTo log coord).map Prod.fst).Pairwise (· < ·)) :
    writesTo (inVersionOrder log) coord = writesTo log coord := by
  have hperm : (writesTo (inVersionOrder log) coord).Perm (writesTo log coord) :=
    (perm_inVersionOrder log).filterMap _
  have hsorted : (writesTo (inVersionOrder log) coord).Pairwise fun lhs rhs => lhs.1 ≤ rhs.1 := by
    refine (pairwise_inVersionOrder log).filterMap _ fun lhs rhs hle first hfirst second hsecond => ?_
    obtain ⟨_, _, rfl⟩ := map_eq_some_iff.mp hfirst
    obtain ⟨_, _, rfl⟩ := map_eq_some_iff.mp hsecond
    exact hle
  have hnodup : ((writesTo log coord).map Prod.fst).Nodup := hincreasing.imp ne_of_lt
  refine hperm.eq_of_pairwise (fun lhs rhs hlhs hrhs hle hge => ?_) hsorted
    ((pairwise_map.mp hincreasing).imp le_of_lt)
  -- two writes of one version are the same write
  exact inj_on_of_nodup_map hnodup (hperm.mem_iff.mp hlhs) hrhs (le_antisymm hle hge)

/-- The state below a version is the one of the writes below it in version order. -/
theorem stateAt_eq_stateBelow
    (hincreasing : ((writesTo log coord).map Prod.fst).Pairwise (· < ·)) :
    stateAt initial log version coord = stateBelow initial log coord (version + 1) := by
  have hfilter : writesTo (log.filter fun commit => commit.version ≤ version) coord
      = (writesTo log coord).filter fun write => write.1 < version + 1 := by
    unfold writesTo
    rw [filterMap_filter, filter_filterMap]
    refine filterMap_congr fun commit _ => ?_
    cases commit.changes.lookup coord with
    | none => simp
    | some state => simp [Option.filter]
  rw [stateAt, replayCommits_apply, writesTo_inVersionOrder, hfilter]
  · rfl
  · rw [hfilter]
    exact List.Pairwise.sublist (filter_sublist.map Prod.fst) hincreasing

end Order

end ChunkDb
